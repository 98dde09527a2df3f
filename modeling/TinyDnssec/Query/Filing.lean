import TinyDnssec.Base.Loop
import TinyDnssec.Query.Glue
import TinyDnssec.Query.Records

/-!
# dnscache: filing the records of a packet

What `doit` of `query.c` does with the record sets of a packet. A set whose owner is within the
domain the packet's servers are in control of, and that they are not barred from telling, goes to
the cache: the data of its records, each type in a form of its own, one behind the other in a buffer
of 8192 octets. `fileSet` deals with one set and `file` with a packet; what they answer is the list
of the calls of `cache_set`.

Whether the servers in charge tell the truth about their domain is not decided by any of this.
-/

namespace TinyDnssec.Dnscache

open Octets

/-! ## `roots.c` -/

/-- The servers of the configured domains. -/
abbrev Roots := List (Name × ServerBlock)

/-- `roots_find`: which of the domains is `q`. -/
def rootsFind (data : Roots) (q : Name) : Option Nat :=
  data.findIdx? fun x => dnsDomainEqual x.1 q

/-- `roots_search`: which of the domains `q` is in. -/
def rootsSearch (data : Roots) : Name → Option Nat
  | [] => rootsFind data []
  | l :: q => (rootsFind data (l :: q)).or (rootsSearch data q)

/-- `roots` -/
def roots (data : Roots) (q : Name) : Option ServerBlock :=
  match rootsFind data q with
  | none => none
  | some r => (data[r]?).map Prod.snd

def rootsSame (data : Roots) (q q2 : Name) : Bool :=
  decide (rootsSearch data q = rootsSearch data q2)

/-! ## Calls of `cache_set` -/

structure CacheSet where
  key : Bytes
  data : Bytes
  ttl : Nat
deriving DecidableEq

/-- The key of a record set: the type, and the owner in lower case. -/
def cacheKey (type : Bytes) (d : Name) : Bytes := type ++ lower (wire d)

/-- `cachegeneric`: no call for a name that does not fit into the key. -/
def cachegeneric (type : Bytes) (d : Name) (data : Bytes) (ttl : Nat) : Option CacheSet :=
  if dnsDomainLength d > 255 then none else some ⟨cacheKey type d, data, ttl⟩

/-- `save_buf` up to `save_len`, or nothing once `save_ok` is off. -/
abbrev Save := Option Bytes

def saveStart : Save := some []

def saveData (buf : Bytes) : Save → Save
  | none => none
  | some s => if buf.length > 8192 - s.length then none else some (s ++ buf)

def saveFinish (type : Bytes) (d : Name) (ttl : Nat) : Save → Option CacheSet
  | none => none
  | some s => cachegeneric type d s ttl

/-! ## One record -/

/-- The ways out of the loop over the sets. -/
inductive Quit where
  | die
  | nxdomain
deriving DecidableEq

/-- A read of the packet; `goto DIE` where it fails. -/
def orDie {α : Type} : Option α → Except Quit α
  | none => .error .die
  | some x => .ok x

/-- The strings that a record of the type SOA is saved as. Records of the authority section are
passed by. -/
def itemSoa (buf : Bytes) (posauthority record : Nat) : Except Quit (List Bytes) := do
  let pos ← orDie (dnsPacketSkipname buf record)
  let (t2, pos) ← orDie (dnsPacketGetname buf (pos + 10))
  let (t3, pos) ← orDie (dnsPacketGetname buf pos)
  let (misc, _) ← orDie (dnsPacketCopy buf pos 20)
  if record < posauthority then .ok [misc, wire t2, wire t3] else .ok []

/-- NS and PTR -/
def itemName (buf : Bytes) (record : Nat) : Except Quit (List Bytes) := do
  let pos ← orDie (dnsPacketSkipname buf record)
  let (t2, _) ← orDie (dnsPacketGetname buf (pos + 10))
  .ok [wire t2]

def itemMx (buf : Bytes) (record : Nat) : Except Quit (List Bytes) := do
  let pos ← orDie (dnsPacketSkipname buf record)
  let (misc, pos) ← orDie (dnsPacketCopy buf (pos + 10) 2)
  let (t2, _) ← orDie (dnsPacketGetname buf pos)
  .ok [misc, wire t2]

/-- A and AAAA: an address of `size` octets, unless it is one to ignore behind `front`. -/
def itemAddress (ignoreip : List Bytes) (front : Bytes) (size : Nat) (buf : Bytes) (record : Nat) :
    Except Quit (List Bytes) := do
  let pos ← orDie (dnsPacketSkipname buf record)
  let (header, pos) ← orDie (dnsPacketCopy buf pos 10)
  if (rrHeader header).datalen ≠ size then .ok []
  else
    let (address, _) ← orDie (dnsPacketCopy buf pos size)
    if ignoreip.any fun ip => decide (ip = front ++ address) then .error .nxdomain
    else .ok [address]

def itemOther (buf : Bytes) (record : Nat) : Except Quit (List Bytes) := do
  let pos ← orDie (dnsPacketSkipname buf record)
  let (header, pos) ← orDie (dnsPacketCopy buf pos 10)
  let datalen := (rrHeader header).datalen
  if datalen > buf.length - pos then .error .die
  else .ok [(header.drop 8).take 2, (buf.drop pos).take datalen]

/-! ## One set -/

/-- The loop that saves the records of a set. -/
def saveAll (item : Nat → Except Quit (List Bytes)) : List Nat → Save → Except Quit Save
  | [], save => .ok save
  | record :: records, save =>
    match item record with
    | .error quit => .error quit
    | .ok strings => saveAll item records (strings.foldl (fun save s => saveData s save) save)

/-- What is configured: the limits of the machine as they come from the environment, and the rest. -/
structure Conf where
  maxloop : Int
  maxlevel : Int
  maxalias : Int
  maxns : Int
  forwardonly : Bool
  hidettl : Bool
  roots : Roots
  ignoreip : List Bytes

/-- The form of a type's records in the cache. -/
def item (conf : Conf) (buf : Bytes) (posauthority : Nat) (type : Bytes) :
    Nat → Except Quit (List Bytes) :=
  if type = dnsTSoa then itemSoa buf posauthority
  else if type = dnsTPtr then itemName buf
  else if type = dnsTNs then itemName buf
  else if type = dnsTMx then itemMx buf
  else if type = dnsTA then itemAddress conf.ignoreip v4mappedprefix 4 buf
  else if type = dnsTAaaa then itemAddress conf.ignoreip [] 16 buf
  else itemOther buf

/-- The branch for the type of a set: the calls of `cache_set`, which is one at most. -/
def saveSet (conf : Conf) (buf : Bytes) (posauthority : Nat) (g : RrSet) :
    Except Quit (Option CacheSet) :=
  if g.type = dnsTAny then .ok none
  else if g.type = dnsTAxfr then .ok none
  else if g.type = dnsTCname then do
    let pos ← orDie (dnsPacketSkipname buf (g.records.getLastD 0))
    let (t2, _) ← orDie (dnsPacketGetname buf (pos + 10))
    .ok (cachegeneric dnsTCname g.owner (wire t2) g.ttl)
  else do
    let save ← saveAll (item conf buf posauthority g.type) g.records saveStart
    -- an SOA set is saved only with a record from the answer section
    if g.type = dnsTSoa ∧ ¬ g.records.any (fun record => record < posauthority) then .ok none
    else .ok (saveFinish g.type g.owner g.ttl save)

/-- Whether the servers in control of `control` are heard about a set. -/
def heard (conf : Conf) (control : Name) (g : RrSet) : Bool :=
  if ¬ dnsDomainSuffix g.owner control then false
  else if ¬ conf.forwardonly ∧ g.type = dnsTNs ∧ dnsDomainEqual g.owner control ∧
      (roots conf.roots control).isNone then false
  else if ¬ rootsSame conf.roots g.owner control then false
  else true

/-- The body of the loop over the sets. -/
def fileSet (conf : Conf) (buf : Bytes) (control : Name) (posauthority : Nat) (g : RrSet)
    (calls : List CacheSet) : Except (Quit × List CacheSet) (List CacheSet) :=
  if heard conf control g then
    match saveSet conf buf posauthority g with
    | .error quit => .error (quit, calls)
    | .ok call => .ok (calls ++ call.toList)
  else .ok calls

/-- From the list of the records to the end of the loop over the sets. -/
def file (conf : Conf) (buf : Bytes) (control : Name) (k posanswers posauthority : Nat) :
    Except (Quit × List CacheSet) (List CacheSet) :=
  match positions buf k posanswers with
  | none => .error (.die, [])
  | some records =>
    groupLoop (fun calls => (.die, calls)) (fileSet conf buf control posauthority) buf
      (sorted buf records) []

/-! ## What is written -/

/-- The position behind `k` records. -/
def behindRecords (buf : Bytes) : Nat → Nat → Option Nat
  | 0, pos => some pos
  | k + 1, pos => (look buf pos).bind fun x => behindRecords buf k x.next

/-- The sections of a packet, behind its header and question: `ps` are the positions of all the
records that the header counts, and the authority section begins at `posauthority`. -/
def Sections (buf : Bytes) (ps : List Nat) (posauthority : Nat) : Prop :=
  ∃ header pos question, dnsPacketCopy buf 0 12 = some (header, pos) ∧
    dnsPacketSkipname buf pos = some question ∧
    positions buf (unbe ((header.drop 6).take 2) + unbe ((header.drop 8).take 2) +
      unbe ((header.drop 10).take 2)) (question + 4) = some ps ∧
    behindRecords buf (unbe ((header.drop 6).take 2)) (question + 4) = some posauthority

/-- A record set out of these records: all that have its type, its owner in any letter case and
class IN. Its spelling and its ttl are those of one of them. -/
structure IsSet (buf : Bytes) (ps : List Nat) (g : RrSet) : Prop where
  whole : g.records = ps.filter (Belongs buf g)
  first : ∃ p ∈ g.records, g.owner = (looked buf p).owner ∧ g.ttl = ttlget (looked buf p).header.ttl

/-- A call that a set of the packet accounts for: the servers are heard about it, and it is saved. -/
def Filed (conf : Conf) (buf : Bytes) (control : Name) (posauthority : Nat) (ps : List Nat)
    (call : CacheSet) : Prop :=
  ∃ g, IsSet buf ps g ∧ heard conf control g = true ∧
    saveSet conf buf posauthority g = .ok (some call)

theorem heard_iff {conf : Conf} {control : Name} {g : RrSet} :
    heard conf control g = true ↔ dnsDomainSuffix g.owner control = true ∧
      ¬ (conf.forwardonly = false ∧ g.type = dnsTNs ∧ dnsDomainEqual g.owner control = true ∧
        roots conf.roots control = none) ∧ rootsSame conf.roots g.owner control = true := by
  unfold heard
  simp only [Bool.not_eq_true, Option.isNone_iff_eq_none]
  split
  · rename_i outside
    exact iff_of_false Bool.false_ne_true fun h => by simp [outside] at h
  · split
    · rename_i own
      exact iff_of_false Bool.false_ne_true fun h => h.2.1 own
    · rename_i inside own
      split
      · rename_i apart
        exact iff_of_false Bool.false_ne_true fun h => by simp [apart] at h
      · rename_i same
        exact iff_of_true rfl ⟨by simpa using inside, own, by simpa using same⟩

theorem cachegeneric_key {type : Bytes} {d : Name} {data : Bytes} {ttl : Nat} {call : CacheSet}
    (h : cachegeneric type d data ttl = some call) : call.key = cacheKey type d ∧ call.data = data := by
  unfold cachegeneric at h
  split at h
  · cases h
  · cases h
    exact ⟨rfl, rfl⟩

theorem saveSet_key {conf : Conf} {buf : Bytes} {posauthority : Nat} {g : RrSet} {call : CacheSet}
    (h : saveSet conf buf posauthority g = .ok (some call)) : call.key = cacheKey g.type g.owner := by
  unfold saveSet at h
  split at h
  · cases h
  · split at h
    · cases h
    · split at h
      · rename_i cname
        obtain ⟨pos, _, h⟩ := Loop.bind_eq_ok.mp h
        obtain ⟨⟨t2, _⟩, _, h⟩ := Loop.bind_eq_ok.mp h
        rw [cname]
        exact (cachegeneric_key (Except.ok.inj h)).1
      · obtain ⟨save, _, h⟩ := Loop.bind_eq_ok.mp h
        split at h
        · cases h
        · replace h := Except.ok.inj h
          cases save with
          | none => cases h
          | some s => exact (cachegeneric_key h).1

/-- The calls behind the loop over the sets. -/
def filed : Except (Quit × List CacheSet) (List CacheSet) → List CacheSet
  | .error (_, calls) => calls
  | .ok calls => calls

theorem setAt_isSet {buf : Bytes} {k pos p : Nat} {ps : List Nat}
    (parsed : positions buf k pos = some ps) (hp : p ∈ ps)
    (cls : (looked buf p).header.cls = dnsCIn) : IsSet buf ps (setAt buf (sorted buf ps) p) where
  whole := setAt_records parsed hp cls
  first := ⟨p, List.mem_filter.mpr ⟨mem_sorted.mpr hp, decide_eq_true rfl⟩, rfl, rfl⟩

/-- The body of the loop adds the call of its set, if any. -/
theorem fileSet_filed {conf : Conf} {buf : Bytes} {control : Name} {posauthority : Nat} {g : RrSet}
    {calls : List CacheSet} {call : CacheSet}
    (mem : call ∈ filed (fileSet conf buf control posauthority g calls)) :
    call ∈ calls ∨ heard conf control g = true ∧
      saveSet conf buf posauthority g = .ok (some call) := by
  unfold fileSet at mem
  by_cases isHeard : heard conf control g = true
  · rw [if_pos isHeard] at mem
    cases hsave : saveSet conf buf posauthority g with
    | error quit =>
      rw [hsave] at mem
      exact .inl mem
    | ok saved =>
      rw [hsave] at mem
      rcases List.mem_append.mp mem with mem | mem
      · exact .inl mem
      · rw [Option.mem_toList] at mem
        exact .inr ⟨isHeard, by rw [mem]⟩
  · rw [if_neg isHeard] at mem
    exact .inl mem

/-- **What is written of a packet**: calls for its record sets that the servers are heard about. -/
theorem file_filed (conf : Conf) (buf : Bytes) (control : Name) {k posanswers : Nat}
    (posauthority : Nat) :
    ∀ call ∈ filed (file conf buf control k posanswers posauthority),
      ∃ ps, positions buf k posanswers = some ps ∧ Filed conf buf control posauthority ps call := by
  unfold file
  cases parsed : positions buf k posanswers with
  | none => exact fun call mem => absurd mem List.not_mem_nil
  | some ps =>
    obtain ⟨firsts, inside, _, _, runs⟩ := groupLoop_spec (sorted buf ps)
      (fun p hp => ((positions_spec parsed).1 p (mem_sorted.mp hp)).2)
      ((sorted_strict parsed).imp fun h => setKey_le_of_smaller h)
    have sets : ∀ g ∈ firsts.map (setAt buf (sorted buf ps)), IsSet buf ps g := by
      intro g hg
      obtain ⟨p, hp, rfl⟩ := List.mem_map.mp hg
      exact setAt_isSet parsed (mem_sorted.mp (inside p hp).1) (inside p hp).2
    intro call mem
    refine ⟨ps, rfl, ?_⟩
    replace mem : call ∈ filed (groupLoop (fun calls => (Quit.die, calls))
      (fileSet conf buf control posauthority) buf (sorted buf ps) []) := mem
    rw [runs] at mem
    -- by induction on the sets, from the calls of those in front
    have run : ∀ calls, call ∈ filed ((firsts.map (setAt buf (sorted buf ps))).foldlM
        (fun calls g => fileSet conf buf control posauthority g calls) calls) →
        call ∈ calls ∨ Filed conf buf control posauthority ps call := by
      clear mem runs
      generalize firsts.map (setAt buf (sorted buf ps)) = gs at sets
      induction gs with
      | nil => exact fun calls mem => .inl mem
      | cons g gs ih =>
        intro calls mem
        have one := @fileSet_filed conf buf control posauthority g calls call
        have rest := ih fun g' hg' => sets g' (List.mem_cons_of_mem _ hg')
        have accounts : heard conf control g = true ∧
            saveSet conf buf posauthority g = .ok (some call) →
            Filed conf buf control posauthority ps call :=
          fun h => ⟨g, sets g List.mem_cons_self, h.1, h.2⟩
        rw [List.foldlM_cons] at mem
        cases hbody : fileSet conf buf control posauthority g calls with
        | error e =>
          rw [hbody] at mem one
          exact (one mem).imp_right accounts
        | ok calls' =>
          rw [hbody] at mem one
          rcases rest calls' mem with mem | later
          · exact (one mem).imp_right accounts
          · exact .inr later
    exact (run [] mem).resolve_left List.not_mem_nil

end TinyDnssec.Dnscache
