import TinyDnssec.Query.Machine
import TinyDnssec.Trace.Worklist

/-!
# dnstrace: reading a response

`parsepacket` goes through the answers and the authority records for what the response is, then
through all records for servers and addresses, and last reports its verdict. Where `query.c` tests
for a CNAME among the records of the name asked for, `parsepacket` does so among all the others: the
`else` stands one brace too far out. So the alias that is followed is never the name's own.

That a verdict is a just one is not said: the servers are taken at their word.
-/

namespace TinyDnssec.Dnstrace

open Octets
open Dnscache (Looked look looked positions typematch readPacket v4mappedprefix)

/-! ## `parsepacket` -/

/-- The flags, with the names that come with them. -/
structure Flags where
  out : Bool := false
  cname : Option Name := none
  referral : Option Name := none
  soa : Bool := false
deriving DecidableEq

/-- What a record of the answer section does to the flags. -/
def scanAnswer (buf : Bytes) (d : Name) (dtype : Bytes) (x : Looked) (flags : Flags) :
    Option Flags :=
  if dnsDomainEqual x.owner d then
    if x.header.cls = dnsCIn ∧ typematch x.header.type dtype then some { flags with out := true }
    else some flags
  else if typematch x.header.type dnsTCname then
    match dnsPacketGetname buf (x.behind + 10) with
    | none => none
    | some (cname, _) => some { flags with cname := some cname }
  else some flags

/-- The loop over the answers, and where it ends. -/
def scanAnswers (buf : Bytes) (d : Name) (dtype : Bytes) :
    Nat → Nat → Flags → Option (Flags × Nat)
  | 0, pos, flags => some (flags, pos)
  | n + 1, pos, flags =>
    match look buf pos with
    | none => none
    | some x =>
      match scanAnswer buf d dtype x flags with
      | none => none
      | some flags => scanAnswers buf d dtype n x.next flags

/-- The loop over the authority section. -/
def scanAuthority (buf : Bytes) : Nat → Nat → Flags → Option Flags
  | 0, _, flags => some flags
  | n + 1, pos, flags =>
    match look buf pos with
    | none => none
    | some x =>
      if typematch x.header.type dnsTSoa then
        scanAuthority buf n x.next { flags with soa := true }
      else if typematch x.header.type dnsTNs then
        scanAuthority buf n x.next { flags with referral := some x.owner }
      else scanAuthority buf n x.next flags

/-- What is learned from a record; nothing where the packet cannot be parsed. -/
def learnRecord (buf : Bytes) (control : Name) (x : Looked) (t : Tables) : Option Tables :=
  if dnsDomainSuffix x.owner control ∧ x.header.cls = dnsCIn then
    if typematch x.header.type dnsTNs then
      match dnsPacketGetname buf (x.behind + 10) with
      | none => none
      | some (t2, _) => some (nsAdd x.owner t2 t)
    else if typematch x.header.type dnsTA ∧ x.header.datalen = 4 then
      match dnsPacketCopy buf (x.behind + 10) 4 with
      | none => none
      | some (ip, _) => some (addressAdd x.owner ( v4mappedprefix ++ ip) t)
    else if typematch x.header.type dnsTAaaa ∧ x.header.datalen = 16 then
      match dnsPacketCopy buf (x.behind + 10) 16 with
      | none => none
      | some (ip, _) => some (addressAdd x.owner ip t)
    else some t
  else some t

/-- The loop over all records. What has been learned stays when the packet cannot be parsed. -/
def learnRecords (buf : Bytes) (control : Name) : Nat → Nat → Tables → Except Tables Tables
  | 0, _, t => .ok t
  | n + 1, pos, t =>
    match look buf pos with
    | none => .error t
    | some x =>
      match learnRecord buf control x t with
      | none => .error t
      | some t => learnRecords buf control n x.next t

section

-- `printrecord`: where the next record begins, and the line for this one if it is asked for
variable (printrecord : Bytes → Nat → Name → Bytes → Option (Nat × Bytes))

/-- The loop that prints the answers. -/
def printAnswers (buf : Bytes) (d : Name) (dtype : Bytes) :
    Nat → Nat → Tables → Except Tables Tables
  | 0, _, t => .ok t
  | n + 1, pos, t =>
    match printrecord buf pos d dtype with
    | none => .error t
    | some (pos, tmp) =>
      printAnswers buf d dtype n pos (if tmp = [] then t else t.print (.answer tmp))

/-- A referral to where the query is already, or to somewhere else. -/
def Flags.lame (flags : Flags) (rcode : Nat) (control : Name) : Option Name :=
  if flags.cname.isNone ∧ rcode = 0 ∧ ¬ flags.out ∧ ¬ flags.soa then
    flags.referral.filter fun r => dnsDomainEqual r control || !dnsDomainSuffix r control
  else none

/-- The response behind its header and its question. -/
def parseSections (buf : Bytes) (d : Name) (dtype : Bytes) (control : Name)
    (rcode posanswers numanswers numauthority numglue : Nat) (t : Tables) : Except Tables Tables :=
  match scanAnswers buf d dtype numanswers posanswers {} with
  | none => .error t
  | some (flags, pos) =>
    match scanAuthority buf numauthority pos flags with
    | none => .error t
    | some flags =>
      match flags.lame rcode control with
      | some referral => .ok (t.print (.lame referral))
      | none =>
        match learnRecords buf control (numanswers + numauthority + numglue) posanswers t with
        | .error t => .error t
        | .ok t =>
          match flags.cname, flags.referral with
          | some cname, _ => .ok ((queryAdd cname dtype t).print (.cname cname))
          | none, referral =>
            if rcode = 3 then .ok (t.print .nxdomain)
            else if flags.out then
              printAnswers printrecord buf d dtype (numanswers + numauthority + numglue) posanswers t
            else if flags.soa then .ok (t.print .nodata)
            else
              match referral with
              | none => .ok (t.print .nodata)
              | some referral =>
                if dnsDomainSuffix d referral then .ok (t.print (.see referral)) else .error t

/-- `parsepacket` up to `DIE`. -/
def parsePacket (buf : Bytes) (d : Name) (dtype : Bytes) (control : Name) (t : Tables) :
    Except Tables Tables :=
  match dnsPacketCopy buf 0 12 with
  | none => .error t
  | some (header, pos) =>
    match dnsPacketSkipname buf pos with
    | none => .error t
    | some pos =>
      let numanswers := unbe ((header.drop 6).take 2)
      let numauthority := unbe ((header.drop 8).take 2)
      let numglue := unbe ((header.drop 10).take 2)
      let rcode := (header.getD 3 0).toNat % 16
      if rcode ≠ 0 ∧ rcode ≠ 3 then .error t
      else parseSections printrecord buf d dtype control rcode (pos + 4) numanswers numauthority
        numglue t

def parsepacket (buf : Bytes) (d : Name) (dtype : Bytes) (control : Name) (t : Tables) : Tables :=
  match parsePacket printrecord buf d dtype control t with
  | .error t => t.print .unparsable
  | .ok t => t

/-! ## What a response says of an alias -/

/-- The positions of the answers. -/
def answers (buf : Bytes) : Option (List Nat) :=
  match dnsPacketCopy buf 0 12 with
  | none => none
  | some (header, pos) =>
    match dnsPacketSkipname buf pos with
    | none => none
    | some pos => positions buf (unbe ((header.drop 6).take 2)) (pos + 4)

theorem answers_eq {buf header : Bytes} {pos pos' : Nat} (hheader : dnsPacketCopy buf 0 12 = some (header, pos))
    (hskip : dnsPacketSkipname buf pos = some pos') :
    answers buf = positions buf (unbe ((header.drop 6).take 2)) (pos' + 4) := by
  unfold answers
  rw [hheader]
  dsimp only
  rw [hskip]

/-- A CNAME record of the name asked for. -/
structure OwnCname (d : Name) (x : Looked) : Prop where
  owner : dnsDomainEqual x.owner d = true
  cls : x.header.cls = dnsCIn
  type : x.header.type = dnsTCname

/-- A CNAME record of another name. -/
structure OtherCname (d : Name) (x : Looked) : Prop where
  owner : dnsDomainEqual x.owner d = false
  type : x.header.type = dnsTCname

/-- The last position where there is such a record, and the name in its data. -/
def LastTarget (buf : Bytes) (kind : Looked → Prop) (ps : List Nat) (target : Name) : Prop :=
  ∃ before p after, ps = before ++ p :: after ∧ kind (looked buf p) ∧
    (∀ q ∈ after, ¬ kind (looked buf q)) ∧
    ∃ stop, dnsPacketGetname buf ((looked buf p).behind + 10) = some (target, stop)

/-- The last such record of the answer section has this target. -/
def Aliased (buf : Bytes) (kind : Looked → Prop) (target : Name) : Prop :=
  ∃ ps, answers buf = some ps ∧ LastTarget buf kind ps target

section

variable (buf : Bytes) (d : Name) (dtype : Bytes) (control : Name) (t : Tables)

/-- The target is reported, by a line of this response, and the query for it enqueued. -/
def Redirects (target : Name) : Prop :=
  Line.cname target ∈ (parsepacket printrecord buf d dtype control { t with out := [] }).out ∧
    ∃ q ∈ (parsepacket printrecord buf d dtype control { t with out := [] }).query,
      q.same ⟨target, dtype⟩ = true

/-- The alias that is followed is the name's own, and the one that `query.c` follows. -/
structure FollowsOwn (scan : Dnscache.Scan) : Prop where
  redirects : ∀ target, Redirects printrecord buf d dtype control t target ↔
    (dtype ≠ dnsTCname ∧ dtype ≠ dnsTAny) ∧ Aliased buf (OwnCname d) target
  others : ∀ ps, answers buf = some ps → ∀ p ∈ ps, dnsDomainEqual (looked buf p).owner d = false →
    ∀ flags flags', scanAnswer buf d dtype (looked buf p) flags = some flags' →
      flags'.cname = flags.cname
  classified : ∀ target, Redirects printrecord buf d dtype control t target ↔
    scan.cname.map Prod.fst = some target

end

end

/-! ## The flags of the answers -/

section

variable {buf : Bytes} {d : Name} {dtype : Bytes}

theorem typematch_cname {type : Bytes} : typematch type dnsTCname = true ↔ type = dnsTCname := by
  unfold typematch
  rw [decide_eq_false (by decide : ¬ dnsTCname = dnsTAny), Bool.or_false, decide_eq_true_eq]
  exact eq_comm

/-- The names behind the aliases that the loop goes by are read. -/
theorem scanAnswers_positions {n pos stop : Nat} {flags flags' : Flags}
    (h : scanAnswers buf d dtype n pos flags = some (flags', stop)) :
    ∃ ps, positions buf n pos = some ps ∧
      ∀ p ∈ ps, ∃ before, (scanAnswer buf d dtype (looked buf p) before).isSome := by
  induction n generalizing pos flags with
  | zero => exact ⟨[], rfl, List.forall_mem_nil _⟩
  | succ n ih =>
    rw [scanAnswers] at h
    split at h
    · cases h
    · rename_i x hx
      split at h
      · cases h
      · rename_i flags₁ hflags
        obtain ⟨ps, hps, read⟩ := ih h
        refine ⟨pos :: ps, by rw [positions, hx]; exact congrArg (Option.map _) hps, ?_⟩
        refine List.forall_mem_cons.mpr ⟨⟨flags, ?_⟩, read⟩
        rw [Dnscache.looked_of hx, hflags]
        rfl

/-- There is a last one when there is any, and its target can be read when all of them can. -/
theorem exists_lastTarget {kind : Looked → Prop} {ps : List Nat}
    (some : ∃ p ∈ ps, kind (looked buf p))
    (read : ∀ p ∈ ps, kind (looked buf p) →
      (dnsPacketGetname buf ((looked buf p).behind + 10)).isSome) :
    ∃ target, LastTarget buf kind ps target := by
  classical
  induction ps using List.reverseRecOn with
  | nil =>
    obtain ⟨p, hp, -⟩ := some
    exact absurd hp List.not_mem_nil
  | append_singleton ps p ih =>
    by_cases there : kind (looked buf p)
    · have readable := read p (List.mem_append_right _ (List.mem_singleton_self p)) there
      obtain ⟨⟨target, stop⟩, hname⟩ := Option.isSome_iff_exists.mp readable
      exact ⟨target, ps, p, [], rfl, there, List.forall_mem_nil _, stop, hname⟩
    · obtain ⟨q, hq, kindq⟩ := some
      have before : q ∈ ps := by
        rcases List.mem_append.mp hq with old | new
        · exact old
        · exact absurd (List.mem_singleton.mp new ▸ kindq) there
      obtain ⟨target, front, r, after, rfl, kindr, none, name⟩ :=
        ih ⟨q, before, kindq⟩ fun r hr => read r (List.mem_append_left _ hr)
      refine ⟨target, front, r, after ++ [p], by simp, kindr, fun q hq => ?_, name⟩
      rcases List.mem_append.mp hq with old | new
      · exact none q old
      · rw [List.mem_singleton.mp new]
        exact there

theorem lastTarget_cons {kind : Looked → Prop} {p : Nat} {ps : List Nat} {target : Name} :
    LastTarget buf kind (p :: ps) target ↔ LastTarget buf kind ps target ∨
      (∀ q ∈ ps, ¬ kind (looked buf q)) ∧ kind (looked buf p) ∧
        ∃ stop, dnsPacketGetname buf ((looked buf p).behind + 10) = some (target, stop) := by
  constructor
  · rintro ⟨before, q, after, split, there, none, name⟩
    cases before with
    | nil =>
      cases split
      exact .inr ⟨none, there, name⟩
    | cons b before =>
      cases split
      exact .inl ⟨before, q, after, rfl, there, none, name⟩
  · rintro (⟨before, q, after, rfl, there, none, name⟩ | ⟨none, there, name⟩)
    · exact ⟨p :: before, q, after, rfl, there, none, name⟩
    · exact ⟨[], p, ps, rfl, there, none, name⟩

/-- One record: a CNAME of another name is the alias then, and nothing else changes it. -/
theorem scanAnswer_cname {x : Looked} {flags flags' : Flags}
    (h : scanAnswer buf d dtype x flags = some flags') :
    (OtherCname d x ∧ ∃ target stop,
        dnsPacketGetname buf (x.behind + 10) = some (target, stop) ∧ flags'.cname = some target) ∨
      ¬ OtherCname d x ∧ flags'.cname = flags.cname := by
  unfold scanAnswer at h
  split at h
  · rename_i own
    have plain : ¬ OtherCname d x := fun other => by simp [other.owner] at own
    right
    refine ⟨plain, ?_⟩
    split at h
    · cases h
      rfl
    · cases h
      rfl
  · rename_i other
    split at h
    · rename_i cname
      left
      refine ⟨⟨Bool.not_eq_true _ ▸ other, typematch_cname.mp cname⟩, ?_⟩
      split at h
      · cases h
      · rename_i target stop name
        cases h
        exact ⟨target, stop, name, rfl⟩
    · rename_i plain
      cases h
      exact .inr ⟨fun other => plain (typematch_cname.mpr other.type), rfl⟩

/-- The alias behind the loop is the target of the last CNAME of another name. -/
theorem scanAnswers_cname {n pos stop : Nat} {flags flags' : Flags}
    (h : scanAnswers buf d dtype n pos flags = some (flags', stop)) {ps : List Nat}
    (hps : positions buf n pos = some ps) (target : Name) :
    flags'.cname = some target ↔ LastTarget buf (OtherCname d) ps target ∨
      (∀ p ∈ ps, ¬ OtherCname d (looked buf p)) ∧ flags.cname = some target := by
  induction n generalizing pos flags ps with
  | zero =>
    cases h
    cases hps
    simp [LastTarget]
  | succ n ih =>
    rw [scanAnswers] at h
    rw [positions] at hps
    split at h
    · cases h
    · rename_i x hx
      rw [hx] at hps
      obtain ⟨rest, hrest, rfl⟩ := Option.map_eq_some_iff.mp hps
      split at h
      · cases h
      · rename_i flags₁ hflags
        rw [ih h hrest, lastTarget_cons, List.forall_mem_cons, Dnscache.looked_of hx, or_assoc]
        refine or_congr_right ?_
        rcases scanAnswer_cname hflags with ⟨other, name, stop', read, now⟩ | ⟨plain, same⟩
        · simp only [other, read, now, not_true_eq_false, false_and, or_false, true_and,
            Option.some.injEq, Prod.mk.injEq, exists_and_left, exists_eq', and_true]
        · simp only [plain, same, not_false_eq_true, false_and, and_false, false_or, true_and]

/-- The pass of `query.c`: the alias is the target of the last CNAME of the name itself. -/
theorem cached_scanAnswers {n pos stop : Nat} {scan scan' : Dnscache.Scan}
    (follows : dtype ≠ dnsTCname ∧ dtype ≠ dnsTAny)
    (h : Dnscache.scanAnswers buf d dtype n pos scan = some (scan', stop)) {ps : List Nat}
    (hps : positions buf n pos = some ps) (target : Name) :
    scan'.cname.map Prod.fst = some target ↔ LastTarget buf (OwnCname d) ps target ∨
      (∀ p ∈ ps, ¬ OwnCname d (looked buf p)) ∧ scan.cname.map Prod.fst = some target := by
  have asked {type : Bytes} (isCname : type = dnsTCname) : typematch type dtype = false := by
    rw [typematch, isCname, decide_eq_false follows.1, decide_eq_false follows.2]
    rfl
  induction n generalizing pos scan ps with
  | zero =>
    cases h
    cases hps
    simp [LastTarget]
  | succ n ih =>
    rw [Dnscache.scanAnswers] at h
    rw [positions] at hps
    split at h
    · cases h
    · rename_i x hx
      rw [hx] at hps
      obtain ⟨rest, hrest, rfl⟩ := Option.map_eq_some_iff.mp hps
      rw [lastTarget_cons, List.forall_mem_cons, Dnscache.looked_of hx, or_assoc]
      have plain (other : ¬ OwnCname d x) {scan₁ : Dnscache.Scan}
          (rest' : Dnscache.scanAnswers buf d dtype n x.next scan₁ = some (scan', stop))
          (same : scan₁.cname = scan.cname) :
          scan'.cname.map Prod.fst = some target ↔ LastTarget buf (OwnCname d) rest target ∨
            (∀ q ∈ rest, ¬ OwnCname d (looked buf q)) ∧ OwnCname d x ∧
              (∃ stop, dnsPacketGetname buf (x.behind + 10) = some (target, stop)) ∨
            (¬ OwnCname d x ∧ ∀ q ∈ rest, ¬ OwnCname d (looked buf q)) ∧
              scan.cname.map Prod.fst = some target := by
        refine (ih rest' hrest).trans ?_
        rw [same]
        simp only [other, false_and, and_false, not_false_eq_true, true_and, false_or]
      split at h
      · rename_i own
        split at h
        · rename_i out
          exact plain (fun cname => by simp [asked cname.type] at out) h rfl
        · split at h
          · rename_i cname
            split at h
            · cases h
            · rename_i name stop' read
              have there : OwnCname d x := ⟨own.1, own.2, typematch_cname.mp cname⟩
              refine (ih h hrest).trans ?_
              simp only [there, read, Option.map_some, Option.some.injEq, Prod.mk.injEq,
                exists_and_left, exists_eq', and_true, not_true_eq_false, false_and, or_false,
                true_and]
          · rename_i cname
            exact plain (fun own => cname (typematch_cname.mpr own.type)) h rfl
      · rename_i other
        exact plain (fun own => other ⟨own.owner, own.cls⟩) h rfl

/-- The targets of the name's own CNAMEs have been read then. -/
theorem cached_positions {n pos stop : Nat} {scan scan' : Dnscache.Scan}
    (h : Dnscache.scanAnswers buf d dtype n pos scan = some (scan', stop)) :
    ∃ ps, positions buf n pos = some ps ∧
      (dtype ≠ dnsTCname ∧ dtype ≠ dnsTAny → ∀ p ∈ ps, OwnCname d (looked buf p) →
        (dnsPacketGetname buf ((looked buf p).behind + 10)).isSome) := by
  induction n generalizing pos scan with
  | zero => exact ⟨[], rfl, fun _ => List.forall_mem_nil _⟩
  | succ n ih =>
    rw [Dnscache.scanAnswers] at h
    split at h
    · cases h
    · rename_i x hx
      have more {scan₁ : Dnscache.Scan}
          (rest : Dnscache.scanAnswers buf d dtype n x.next scan₁ = some (scan', stop))
          (read : dtype ≠ dnsTCname ∧ dtype ≠ dnsTAny → OwnCname d x →
            (dnsPacketGetname buf (x.behind + 10)).isSome) :
          ∃ ps, positions buf (n + 1) pos = some ps ∧
            (dtype ≠ dnsTCname ∧ dtype ≠ dnsTAny → ∀ p ∈ ps, OwnCname d (looked buf p) →
              (dnsPacketGetname buf ((looked buf p).behind + 10)).isSome) := by
        obtain ⟨ps, hps, reads⟩ := ih rest
        refine ⟨pos :: ps, by rw [positions, hx]; exact congrArg (Option.map _) hps, ?_⟩
        intro follows
        refine List.forall_mem_cons.mpr ⟨?_, reads follows⟩
        rw [Dnscache.looked_of hx]
        exact read follows
      split at h
      · split at h
        · rename_i out
          refine more h fun follows own => ?_
          rw [typematch, own.type, decide_eq_false follows.1, decide_eq_false follows.2] at out
          cases out
        · split at h
          · split at h
            · cases h
            · rename_i read
              exact more h fun _ _ => by rw [read]; rfl
          · rename_i cname
            exact more h fun _ own => absurd (typematch_cname.mpr own.type) cname
      · rename_i other
        exact more h fun _ own => absurd ⟨own.owner, own.cls⟩ other

/-- Without a query that it follows aliases for, `query.c` finds none. -/
theorem cached_scanAnswers_none {n pos stop : Nat} {scan scan' : Dnscache.Scan}
    (all : dtype = dnsTCname ∨ dtype = dnsTAny)
    (h : Dnscache.scanAnswers buf d dtype n pos scan = some (scan', stop)) :
    scan'.cname = scan.cname := by
  have asked {type : Bytes} (isCname : type = dnsTCname) : typematch type dtype = true := by
    rw [typematch, isCname, Bool.or_eq_true, decide_eq_true_eq, decide_eq_true_eq]
    exact all
  induction n generalizing pos scan with
  | zero =>
    cases h
    rfl
  | succ n ih =>
    rw [Dnscache.scanAnswers] at h
    split at h
    · cases h
    · split at h
      · split at h
        · rw [ih h]
        · rename_i unasked
          split at h
          · rename_i cname
            exact absurd (asked (typematch_cname.mp cname)) unasked
          · exact ih h
      · exact ih h

end

/-! ## What is printed -/

/-- No line reports an alias. -/
def Silent (t : Tables) : Prop := ∀ target, Line.cname target ∉ t.out

theorem Silent.print {t : Tables} (silent : Silent t) {line : Line}
    (other : ∀ target, line ≠ .cname target) : Silent (t.print line) := by
  intro target mem
  rcases List.mem_append.mp mem with old | new
  · exact silent target old
  · exact other target (List.mem_singleton.mp new).symm

theorem queryAdd_out (owner : Name) (type : Bytes) (t : Tables) :
    (queryAdd owner type t).out = t.out := by
  unfold queryAdd
  split <;> rfl

theorem nsAdd_out (owner server : Name) (t : Tables) :
    (nsAdd owner server t).out = (t.print (.ns owner server)).out := by
  unfold nsAdd
  split
  · rfl
  · exact queryAdd_out server dnsTA _

theorem addressAdd_out (owner : Name) (ip : Bytes) (t : Tables) :
    (addressAdd owner ip t).out = (t.print (.a owner ip)).out := by
  unfold addressAdd
  split <;> rfl

theorem Silent.learnRecord {buf : Bytes} {control : Name} {x : Looked} {t t' : Tables}
    (silent : Silent t) (h : learnRecord buf control x t = some t') : Silent t' := by
  have ns (server : Name) : Silent (nsAdd x.owner server t) := by
    unfold Silent
    rw [nsAdd_out]
    exact silent.print fun _ h => by cases h
  have address (ip : Bytes) : Silent (addressAdd x.owner ip t) := by
    unfold Silent
    rw [addressAdd_out]
    exact silent.print fun _ h => by cases h
  unfold Dnstrace.learnRecord at h
  split at h
  · split at h
    · split at h
      · cases h
      · cases h
        exact ns _
    · split at h
      · split at h
        · cases h
        · cases h
          exact address _
      · split at h
        · split at h
          · cases h
          · cases h
            exact address _
        · cases h
          exact silent
  · cases h
    exact silent

theorem Silent.learnRecords {buf : Bytes} {control : Name} {n pos : Nat} {t t' : Tables}
    (silent : Silent t) (h : learnRecords buf control n pos t = .ok t') : Silent t' := by
  induction n generalizing pos t with
  | zero =>
    cases h
    exact silent
  | succ n ih =>
    rw [Dnstrace.learnRecords] at h
    split at h
    · cases h
    · split at h
      · cases h
      · rename_i hlearn
        exact ih (silent.learnRecord hlearn) h

theorem Silent.printAnswers {printrecord : Bytes → Nat → Name → Bytes → Option (Nat × Bytes)}
    {buf : Bytes} {d : Name} {dtype : Bytes} {n pos : Nat} {t t' : Tables} (silent : Silent t)
    (h : printAnswers printrecord buf d dtype n pos t = .ok t') : Silent t' := by
  induction n generalizing pos t with
  | zero =>
    cases h
    exact silent
  | succ n ih =>
    rw [Dnstrace.printAnswers] at h
    split at h
    · cases h
    · refine ih ?_ h
      split
      · exact silent
      · exact silent.print fun _ h => by cases h

/-- The query that is added is there afterwards, in one spelling or another. -/
theorem queryAdd_same (owner : Name) (type : Bytes) (t : Tables) :
    ∃ q ∈ (queryAdd owner type t).query, q.same ⟨owner, type⟩ = true := by
  unfold queryAdd
  split
  · rename_i known
    exact List.any_eq_true.mp known
  · refine ⟨⟨owner, type⟩, List.mem_append_right _ (List.mem_singleton_self _), ?_⟩
    simp [Query.same, dnsDomainEqual_self]

/-! ## The alias that is followed -/

section

variable {printrecord : Bytes → Nat → Name → Bytes → Option (Nat × Bytes)}
variable {buf : Bytes} {d : Name} {dtype : Bytes} {control : Name}

theorem scanAuthority_cname {n pos : Nat} {flags flags' : Flags}
    (h : scanAuthority buf n pos flags = some flags') : flags'.cname = flags.cname := by
  induction n generalizing pos flags with
  | zero =>
    cases h
    rfl
  | succ n ih =>
    rw [scanAuthority] at h
    split at h
    · cases h
    · split at h
      · rw [ih h]
      · split at h
        · rw [ih h]
        · exact ih h

/-- The verdict on a response that has an alias, and on one that has none. -/
theorem parseSections_ok {rcode pos numanswers numauthority numglue : Nat} {t t' : Tables}
    (silent : Silent t)
    (h : parseSections printrecord buf d dtype control rcode pos numanswers numauthority numglue t =
      .ok t') :
    ∃ flags stop, scanAnswers buf d dtype numanswers pos {} = some (flags, stop) ∧
      match flags.cname with
      | some cname => ∃ before, Silent before ∧ t' = (queryAdd cname dtype before).print (.cname cname)
      | none => Silent t' := by
  unfold parseSections at h
  split at h
  · cases h
  · rename_i flags stop hflags
    refine ⟨flags, stop, hflags, ?_⟩
    split at h
    · cases h
    · rename_i flags' hauthority
      have same := scanAuthority_cname hauthority
      rw [← same]
      split at h
      · rename_i referral lame
        have none : flags'.cname = none := by
          unfold Flags.lame at lame
          split at lame
          · rename_i bare
            exact Option.isNone_iff_eq_none.mp bare.1
          · cases lame
        cases h
        rw [none]
        exact silent.print fun _ h => by cases h
      · split at h
        · cases h
        · rename_i t₁ hlearn
          have learned := silent.learnRecords hlearn
          split at h
          · rename_i cname referral hcname
            cases h
            rw [hcname]
            exact ⟨t₁, learned, rfl⟩
          · rename_i referral hcname
            rw [hcname]
            split at h
            · cases h
              exact learned.print fun _ h => by cases h
            · split at h
              · exact learned.printAnswers h
              · split at h
                · cases h
                  exact learned.print fun _ h => by cases h
                · split at h
                  · cases h
                    exact learned.print fun _ h => by cases h
                  · split at h
                    · cases h
                      exact learned.print fun _ h => by cases h
                    · cases h

/-- Behind its header the response is read section by section, from the answers on. -/
theorem parsePacket_ok {t t' : Tables}
    (h : parsePacket printrecord buf d dtype control t = .ok t') :
    ∃ rcode pos numanswers numauthority numglue, answers buf = positions buf numanswers pos ∧
      parseSections printrecord buf d dtype control rcode pos numanswers numauthority numglue t =
        .ok t' := by
  unfold parsePacket at h
  unfold answers
  split at h
  · cases h
  · split at h
    · cases h
    · simp only [] at h
      split at h
      · cases h
      · exact ⟨_, _, _, _, _, rfl, h⟩

/-- **The alias that `dnstrace` follows is the last CNAME of another name.** -/
theorem redirects_iff {t t' : Tables}
    (h : parsePacket printrecord buf d dtype control { t with out := [] } = .ok t') (target : Name) :
    Redirects printrecord buf d dtype control t target ↔ Aliased buf (OtherCname d) target := by
  have silent : Silent { t with out := [] } := fun _ => List.not_mem_nil
  have whole : parsepacket printrecord buf d dtype control { t with out := [] } = t' := by
    rw [parsepacket, h]
  unfold Redirects
  rw [whole]
  obtain ⟨_, _, _, _, _, hanswers, hsections⟩ := parsePacket_ok h
  obtain ⟨flags, stop, hflags, verdict⟩ := parseSections_ok silent hsections
  obtain ⟨ps, hps, -⟩ := scanAnswers_positions hflags
  have alias' := scanAnswers_cname hflags hps target
  simp only [reduceCtorEq, and_false, or_false] at alias'
  rw [hps] at hanswers
  unfold Aliased
  simp only [hanswers, Option.some.injEq, exists_eq_left']
  rw [← alias']
  cases hcname : flags.cname with
  | none =>
    rw [hcname] at verdict
    exact ⟨fun reported => absurd reported.1 (verdict target), fun h => by cases h⟩
  | some cname =>
    rw [hcname] at verdict
    obtain ⟨before, quiet, rfl⟩ := verdict
    constructor
    · rintro ⟨reported, -⟩
      rcases List.mem_append.mp reported with old | new
      · rw [queryAdd_out] at old
        exact absurd old (quiet target)
      · cases List.mem_singleton.mp new
        rfl
    · rintro ⟨⟩
      exact ⟨List.mem_append_right _ (List.mem_singleton_self _), queryAdd_same _ _ _⟩

/-- The loop over the answers has gone by each of them. -/
theorem parsePacket_scanned {t t' : Tables}
    (h : parsePacket printrecord buf d dtype control t = .ok t') {ps : List Nat}
    (hps : answers buf = some ps) :
    ∀ p ∈ ps, ∃ before, (scanAnswer buf d dtype (looked buf p) before).isSome := by
  obtain ⟨_, _, _, _, _, hanswers, hsections⟩ := parsePacket_ok h
  unfold parseSections at hsections
  split at hsections
  · cases hsections
  · rename_i hscan
    obtain ⟨ps', hps', scanned⟩ := scanAnswers_positions hscan
    rw [hanswers, hps'] at hps
    cases hps
    exact scanned

/-- `query.c` follows the last CNAME of the name itself, unless CNAMEs are what it asks for. -/
theorem cached_alias {x : Dnscache.Reading} (h : readPacket buf d dtype = some x) :
    ∃ ps, answers buf = some ps ∧
      ((dtype ≠ dnsTCname ∧ dtype ≠ dnsTAny) ∧ (∃ p ∈ ps, OwnCname d (looked buf p)) →
        ∃ target, LastTarget buf (OwnCname d) ps target) ∧
      ∀ target, x.scan.cname.map Prod.fst = some target ↔
        (dtype ≠ dnsTCname ∧ dtype ≠ dnsTAny) ∧ LastTarget buf (OwnCname d) ps target := by
  unfold readPacket at h
  split at h
  · cases h
  · split at h
    · cases h
    · simp only [] at h
      split at h
      · cases h
      · rename_i hheader _ _ hskip _
        split at h
        · cases h
        · rename_i scan stop hscan
          split at h
          · cases h
          · rename_i scan' hauthority
            cases h
            obtain ⟨ps, hps, read⟩ := cached_positions hscan
            refine ⟨ps, (answers_eq hheader hskip).trans hps,
              fun own => exists_lastTarget own.2 (read own.1), fun target => ?_⟩
            rw [Dnscache.scanAuthority_cname hauthority]
            by_cases follows : dtype ≠ dnsTCname ∧ dtype ≠ dnsTAny
            · rw [cached_scanAnswers follows hscan hps]
              simp [follows]
            · have all : dtype = dnsTCname ∨ dtype = dnsTAny := by tauto
              rw [cached_scanAnswers_none all hscan]
              simp [follows]

/-! ## When the right alias is followed -/

/-- No CNAME in the answer section but such as are asked for. -/
def Aliasless (buf : Bytes) (d : Name) (dtype : Bytes) : Prop :=
  ∀ ps, answers buf = some ps → ∀ p ∈ ps, ¬ OtherCname d (looked buf p) ∧
    (OwnCname d (looked buf p) → dtype = dnsTCname ∨ dtype = dnsTAny)

theorem LastTarget.exists_mem {kind : Looked → Prop} {ps : List Nat} {target : Name}
    (h : LastTarget buf kind ps target) : ∃ p ∈ ps, kind (looked buf p) := by
  obtain ⟨before, p, after, rfl, there, -⟩ := h
  exact ⟨p, List.mem_append_right _ List.mem_cons_self, there⟩

/-- A CNAME of another name that can be read is the alias, whatever was before. -/
theorem scanAnswer_other {x : Looked} (other : OtherCname d x) {flags flags' : Flags}
    (h : scanAnswer buf d dtype x flags = some flags') :
    ∃ target, scanAnswer buf d dtype x {} = some { cname := some target } := by
  rcases scanAnswer_cname h with ⟨-, target, stop, read, -⟩ | ⟨plain, -⟩
  · refine ⟨target, ?_⟩
    rw [scanAnswer, other.owner, typematch_cname.mpr other.type, read]
    rfl
  · exact absurd other plain

/-- A response is read right when, and only when, there is no alias in it to be followed: an alias of
the name is missed, and any other one is taken for its own. -/
theorem followsOwn_iff {t t' : Tables} {x : Dnscache.Reading}
    (parses : parsePacket printrecord buf d dtype control { t with out := [] } = .ok t')
    (read : readPacket buf d dtype = some x) :
    FollowsOwn printrecord buf d dtype control t x.scan ↔ Aliasless buf d dtype := by
  have redirects := redirects_iff parses
  obtain ⟨ps, hps, exists_own, cached⟩ := cached_alias read
  constructor
  · intro right ps' hps'
    cases hps.symm.trans hps'
    have others : ∀ p ∈ ps, ¬ OtherCname d (looked buf p) := by
      intro p hp other
      obtain ⟨before, scanned⟩ := parsePacket_scanned parses hps p hp
      obtain ⟨flags, hflags⟩ := Option.isSome_iff_exists.mp scanned
      obtain ⟨target, redirected⟩ := scanAnswer_other other hflags
      cases right.others ps hps p hp other.owner {} _ redirected
    refine fun p hp => ⟨others p hp, fun own => ?_⟩
    by_contra follows
    rw [not_or] at follows
    obtain ⟨target, last⟩ := exists_own ⟨follows, p, hp, own⟩
    obtain ⟨ps', hps', other⟩ :=
      (redirects target).mp ((right.redirects target).mpr ⟨follows, ps, hps, last⟩)
    cases hps.symm.trans hps'
    obtain ⟨q, hq, otherq⟩ := other.exists_mem
    exact others q hq otherq
  · intro aliasless
    have never (target : Name) : ¬ Redirects printrecord buf d dtype control t target := by
      intro redirected
      obtain ⟨ps', hps', other⟩ := (redirects target).mp redirected
      obtain ⟨q, hq, otherq⟩ := other.exists_mem
      exact (aliasless ps' hps' q hq).1 otherq
    have own (target : Name) (follows : dtype ≠ dnsTCname ∧ dtype ≠ dnsTAny) :
        ¬ LastTarget buf (OwnCname d) ps target := by
      intro last
      obtain ⟨q, hq, ownq⟩ := last.exists_mem
      rcases (aliasless ps hps q hq).2 ownq with cname | any
      · exact follows.1 cname
      · exact follows.2 any
    refine ⟨fun target => ?_, ?_, fun target => ?_⟩
    · refine iff_of_false (never target) ?_
      rintro ⟨follows, ps', hps', last⟩
      cases hps.symm.trans hps'
      exact own target follows last
    · intro ps' hps' p hp _ flags flags' step
      rcases scanAnswer_cname step with ⟨other, -⟩ | ⟨-, same⟩
      · exact absurd other (aliasless ps' hps' p hp).1
      · exact same
    · rw [cached target]
      exact iff_of_false (never target) fun both => own target both.1 both.2

end

theorem toOption_eq_some {ε α : Type} {x : Except ε α} {a : α} (h : x.toOption = some a) :
    x = .ok a := by
  cases x with
  | error e => cases h
  | ok b => exact congrArg Except.ok (Option.some.inj h)

/-- A record that is not asked for is gone by and not printed. -/
def skipRecord (buf : Bytes) (pos : Nat) (_ : Name) (_ : Bytes) : Option (Nat × Bytes) :=
  (look buf pos).map fun x => (x.next, [])

/-- The name asked for is an alias of another one. -/
def aliasOfA : Bytes :=
  [0, 0, 128, 0, 0, 1, 0, 1, 0, 0, 0, 0] ++ [1, 97, 0, 0, 1, 0, 1] ++
    [1, 97, 0, 0, 5, 0, 1, 0, 0, 0, 60, 0, 3, 1, 98, 0]

theorem alias_missed :
    ¬ ∀ (printrecord : Bytes → Nat → Name → Bytes → Option (Nat × Bytes)) (buf : Bytes) (d : Name)
        (dtype : Bytes) (control : Name) (t t' : Tables) (x : Dnscache.Reading),
      parsePacket printrecord buf d dtype control { t with out := [] } = .ok t' →
      readPacket buf d dtype = some x →
      FollowsOwn printrecord buf d dtype control t x.scan := by
  intro all
  have printed : (parsePacket skipRecord aliasOfA [[97]] dnsTA [] {}).toOption.map Tables.out =
      some [.nodata] := by decide +kernel
  obtain ⟨t', ht', out⟩ := Option.map_eq_some_iff.mp printed
  have parses := toOption_eq_some ht'
  have read : (readPacket aliasOfA [[97]] dnsTA).isSome := by decide +kernel
  obtain ⟨x, hx⟩ := Option.isSome_iff_exists.mp read
  have cname : (readPacket aliasOfA [[97]] dnsTA).bind (·.scan.cname.map Prod.fst) =
      some [[98]] := by decide +kernel
  rw [hx] at cname
  have redirected := ((all skipRecord aliasOfA [[97]] dnsTA [] {} t' x parses hx).classified
    [[98]]).mpr cname
  have reported := redirected.1
  rw [parsepacket, parses] at reported
  simp only [out] at reported
  cases List.mem_singleton.mp reported

/-- The answer is about another name. -/
def strayOfA : Bytes :=
  [0, 0, 128, 0, 0, 1, 0, 1, 0, 0, 0, 0] ++ [1, 97, 0, 0, 1, 0, 1] ++
    [1, 98, 0, 0, 1, 0, 1, 0, 0, 0, 60, 0, 4, 10, 0, 0, 1]

theorem followsOwn_strayOfA : ∃ x, readPacket strayOfA [[97]] dnsTA = some x ∧
    FollowsOwn skipRecord strayOfA [[97]] dnsTA [] {} x.scan := by
  have parses : (parsePacket skipRecord strayOfA [[97]] dnsTA [] {}).toOption.isSome := by
    decide +kernel
  have read : (readPacket strayOfA [[97]] dnsTA).isSome := by decide +kernel
  have positions : answers strayOfA = some [19] := by decide +kernel
  have address : (looked strayOfA 19).header.type = dnsTA := by decide +kernel
  obtain ⟨x, hx⟩ := Option.isSome_iff_exists.mp read
  obtain ⟨t', ht'⟩ := Option.isSome_iff_exists.mp parses
  refine ⟨x, hx, (followsOwn_iff (t := {}) (toOption_eq_some ht') hx).mpr ?_⟩
  intro ps hps p hp
  cases positions.symm.trans hps
  cases List.mem_singleton.mp hp
  constructor
  · intro other
    cases address.symm.trans other.type
  · intro own
    cases address.symm.trans own.type

end TinyDnssec.Dnstrace
