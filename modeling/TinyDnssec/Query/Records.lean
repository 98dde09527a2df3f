import TinyDnssec.Base.HeapSort
import TinyDnssec.Dns
import TinyDnssec.Packet

/-!
# dnscache: the record sets of a packet

Behind the flags of a packet, `doit` of `query.c` lists the positions of its records, sorts them in
place and goes through them set by set: records of one type, class and owner stand next to each
other then, in the order of the packet.

`positions` is the loop that lists them, `smaller` the comparison of the sort, and `groupLoop` the
loop that forms the sets. What `doit` does with a set is a parameter of that loop.

What a set is good for, and whether it may be filed, is decided elsewhere.
-/

namespace TinyDnssec.Dnscache

open Octets

/-- A record as the loops read it: its owner, the position behind that name, the ten octets there. -/
structure Looked where
  owner : Name
  behind : Nat
  fixed : Bytes
deriving DecidableEq

def look (buf : Bytes) (pos : Nat) : Option Looked :=
  match dnsPacketGetname buf pos with
  | none => none
  | some (t1, pos) =>
    match dnsPacketCopy buf pos 10 with
    | none => none
    | some (header, _) => some ⟨t1, pos, header⟩

def Looked.header (x : Looked) : RrHeader := rrHeader x.fixed

/-- Where the record behind this one begins. -/
def Looked.next (x : Looked) : Nat := x.behind + 10 + x.header.datalen

/-- The positions of `k` records from `pos` on, when all of them can be read. -/
def positions (buf : Bytes) : Nat → Nat → Option (List Nat)
  | 0, _ => some []
  | k + 1, pos =>
    match look buf pos with
    | none => none
    | some x => (positions buf k x.next).map (pos :: ·)

/-- A record of the sort. Every position sorted has been read before, so that the reads of `smaller`
do not fail. -/
def looked (buf : Bytes) (pos : Nat) : Looked := (look buf pos).getD ⟨[], 0, []⟩

/-- The comparison of the sort: the type and class, the length of the owner, the owner in lower
case, and the position behind it. -/
def smaller (buf : Bytes) (pos1 pos2 : Nat) : Bool :=
  let x1 := looked buf pos1
  let x2 := looked buf pos2
  let header1 := x1.fixed.take 4
  let header2 := x2.fixed.take 4
  if header1 < header2 then true
  else if header2 < header1 then false
  else
    let len1 := dnsDomainLength x1.owner
    let len2 := dnsDomainLength x2.owner
    if len1 < len2 then true
    else if len2 < len1 then false
    else
      let t1 := lower (wire x1.owner)
      let t2 := lower (wire x2.owner)
      if t1 < t2 then true
      else if t2 < t1 then false
      else if x1.behind < x2.behind then true
      else false

/-- The array `records` behind the sort. -/
def sorted (buf : Bytes) (records : List Nat) : List Nat := HeapSort.sort (smaller buf) records

/-- A record set: what is read from its first record, and the positions of all. -/
structure RrSet where
  owner : Name
  type : Bytes
  ttl : Nat
  records : List Nat
deriving DecidableEq

/-- The inner loop over `j`: how far the set goes, and what is left behind it. -/
def sameSet (buf : Bytes) (t1 : Name) (type : Bytes) : List Nat → Option (List Nat × List Nat)
  | [] => some ([], [])
  | pos :: records =>
    match look buf pos with
    | none => none
    | some x =>
      if dnsDomainEqual t1 x.owner ∧ x.header.type = type ∧ x.header.cls = dnsCIn then
        (sameSet buf t1 type records).map fun (more, left) => (pos :: more, left)
      else some ([], pos :: records)

theorem sameSet_le {buf : Bytes} {t1 : Name} {type : Bytes} {records more left : List Nat}
    (h : sameSet buf t1 type records = some (more, left)) : left.length ≤ records.length := by
  induction records generalizing more with
  | nil =>
    cases h
    exact Nat.le_refl _
  | cons pos records ih =>
    rw [sameSet] at h
    split at h
    · cases h
    · split at h
      · rw [Option.map_eq_some_iff] at h
        obtain ⟨⟨more', left'⟩, hrec, heq⟩ := h
        cases heq
        exact Nat.le_succ_of_le (ih hrec)
      · cases h
        exact Nat.le_refl _

def ttlget (ttl : Nat) : Nat :=
  if ttl > 1000000000 then 0
  else if ttl > 604800 then 604800
  else ttl

/-- The loop over the sorted records. A record of another class is passed by; any other one starts
a set, which `body` deals with. `die` is what a read that fails leaves. -/
def groupLoop {σ ε : Type} (die : σ → ε) (body : RrSet → σ → Except ε σ) (buf : Bytes)
    (records : List Nat) (s : σ) : Except ε σ :=
  match records with
  | [] => .ok s
  | pos :: records =>
    match look buf pos with
    | none => .error (die s)
    | some x =>
      if x.header.cls ≠ dnsCIn then groupLoop die body buf records s
      else
        match _h : sameSet buf x.owner x.header.type records with
        | none => .error (die s)
        | some (more, left) =>
          match body ⟨x.owner, x.header.type, ttlget x.header.ttl, pos :: more⟩ s with
          | .error e => .error e
          | .ok s => groupLoop die body buf left s
termination_by records.length
decreasing_by
  · exact Nat.lt_succ_self _
  · exact Nat.lt_succ_of_le (sameSet_le ‹_›)

/-! ## The order of the sort -/

/-- What a set has in common, as the sort compares it. -/
def setKey (buf : Bytes) (pos : Nat) : Bytes ×ₗ ℕ ×ₗ Bytes :=
  toLex ((looked buf pos).fixed.take 4,
    toLex (dnsDomainLength (looked buf pos).owner, lower (wire (looked buf pos).owner)))

def sortKey (buf : Bytes) (pos : Nat) : (Bytes ×ₗ ℕ ×ₗ Bytes) ×ₗ ℕ :=
  toLex (setKey buf pos, (looked buf pos).behind)

/-- One of the comparisons that go on to the next field when two fields are equal. -/
theorem three_way {γ : Type} [LinearOrder γ] (a b : γ) [Decidable (a < b)] [Decidable (b < a)]
    (c : Bool) : (if a < b then true else if b < a then false else c) = true ↔ a < b ∨ a = b ∧ c = true := by
  rcases lt_trichotomy a b with h | h | h
  · simp only [h, if_true, true_or]
  · simp only [h, lt_irrefl, if_false, false_or, true_and]
  · simp only [h.not_gt, h, if_true, if_false, h.ne', false_and, or_self, Bool.false_eq_true]

/-- **`smaller` is the strict order of the keys.** -/
theorem smaller_iff (buf : Bytes) (pos1 pos2 : Nat) :
    smaller buf pos1 pos2 = true ↔ sortKey buf pos1 < sortKey buf pos2 := by
  unfold smaller sortKey setKey
  simp only []
  rw [three_way, three_way, three_way]
  simp only [Prod.Lex.toLex_lt_toLex, toLex_inj, Prod.mk.injEq, Bool.if_true_left, Bool.or_false,
    decide_eq_true_eq]
  tauto

theorem smaller_irrefl (buf : Bytes) (pos : Nat) : ¬ smaller buf pos pos = true := fun h =>
  lt_irrefl _ ((smaller_iff ..).mp h)

theorem smaller_trans {buf : Bytes} {pos1 pos2 pos3 : Nat} (h : smaller buf pos1 pos2 = true)
    (h' : smaller buf pos2 pos3 = true) : smaller buf pos1 pos3 = true :=
  (smaller_iff ..).mpr (((smaller_iff ..).mp h).trans ((smaller_iff ..).mp h'))

theorem look_fixed {buf : Bytes} {pos : Nat} {x : Looked} (h : look buf pos = some x) :
    x.fixed.length = 10 ∧ pos < x.behind := by
  unfold look at h
  split at h
  · cases h
  · rename_i hname
    split at h
    · cases h
    · rename_i hcopy
      cases h
      exact ⟨(dnsPacketCopy_eq_some.mp hcopy).2.1, dnsPacketGetname_forward hname⟩

theorem looked_of {buf : Bytes} {pos : Nat} {x : Looked} (h : look buf pos = some x) :
    looked buf pos = x := by
  unfold looked
  rw [h, Option.getD_some]

/-- Two records of one set, or of one that `groupLoop` passes by. -/
structure Alike (x y : Looked) : Prop where
  owner : dnsDomainEqual x.owner y.owner = true
  type : x.header.type = y.header.type
  cls : x.header.cls = y.header.cls

theorem setKey_eq_iff {buf : Bytes} {pos1 pos2 : Nat} {x y : Looked}
    (hx : look buf pos1 = some x) (hy : look buf pos2 = some y) :
    setKey buf pos1 = setKey buf pos2 ↔ Alike x y := by
  have halves : ∀ z : Looked, z.fixed.take 4 = z.header.type ++ z.header.cls := fun z =>
    List.take_add (i := 2) (j := 2)
  have two : ∀ z : Looked, z.fixed.length = 10 → z.header.type.length = 2 := by
    intro z hz
    show (z.fixed.take 2).length = 2
    rw [List.length_take, hz]
    rfl
  have types := (two x (look_fixed hx).1).trans (two y (look_fixed hy).1).symm
  have same : setKey buf pos1 = setKey buf pos2 ↔
      (x.header.type ++ x.header.cls = y.header.type ++ y.header.cls) ∧
        dnsDomainLength x.owner = dnsDomainLength y.owner ∧
          lower (wire x.owner) = lower (wire y.owner) := by
    unfold setKey
    rw [looked_of hx, looked_of hy, toLex_inj, Prod.mk.injEq, toLex_inj, Prod.mk.injEq, halves,
      halves]
  have owners : dnsDomainEqual x.owner y.owner = true ↔
      dnsDomainLength x.owner = dnsDomainLength y.owner ∧
        lower (wire x.owner) = lower (wire y.owner) := by
    rw [dnsDomainEqual, Bool.and_eq_true, decide_eq_true_eq, decide_eq_true_eq]
  rw [same, ← owners]
  constructor
  · rintro ⟨header, owner⟩
    obtain ⟨type, cls⟩ := List.append_inj header types
    exact ⟨owner, type, cls⟩
  · rintro ⟨owner, type, cls⟩
    exact ⟨by rw [type, cls], owner⟩

/-! ## The positions of a packet -/

/-- The records of a packet follow one another: further on in the packet, a record begins further
on and its owner ends further on. -/
theorem positions_spec {buf : Bytes} {k pos : Nat} {ps : List Nat}
    (h : positions buf k pos = some ps) :
    (∀ p ∈ ps, pos ≤ p ∧ (look buf p).isSome) ∧
      ps.Pairwise fun p q => p < q ∧ (looked buf p).behind < (looked buf q).behind := by
  induction k generalizing pos ps with
  | zero =>
    cases h
    exact ⟨fun _ h => absurd h List.not_mem_nil, .nil⟩
  | succ k ih =>
    rw [positions] at h
    split at h
    · cases h
    · rename_i x hx
      rw [Option.map_eq_some_iff] at h
      obtain ⟨rest, hrest, rfl⟩ := h
      obtain ⟨each, later⟩ := ih hrest
      have hpos := (look_fixed hx).2
      have hnext : x.behind ≤ x.next := by unfold Looked.next; omega
      refine ⟨?_, .cons ?_ later⟩
      · intro p hp
        rcases List.mem_cons.mp hp with rfl | hp
        · exact ⟨Nat.le_refl p, by rw [hx]; rfl⟩
        · have := (each p hp).1
          exact ⟨by omega, (each p hp).2⟩
      · intro q hq
        have hle := (each q hq).1
        obtain ⟨y, hy⟩ := Option.isSome_iff_exists.mp (each q hq).2
        have hbehind := (look_fixed hy).2
        rw [looked_of hx, looked_of hy]
        exact ⟨by omega, by omega⟩

/-- Positions in the packet and the places where their owners end come in one order. -/
theorem positions_mono {buf : Bytes} {k pos : Nat} {ps : List Nat}
    (h : positions buf k pos = some ps) {p q : Nat} (hp : p ∈ ps) (hq : q ∈ ps)
    (lt : (looked buf p).behind < (looked buf q).behind) : p < q := by
  have order : ps.Pairwise fun p q =>
      ((looked buf p).behind < (looked buf q).behind → p < q) ∧
        ((looked buf q).behind < (looked buf p).behind → q < p) :=
    (positions_spec h).2.imp fun both => ⟨fun _ => both.1, fun back => absurd back both.2.not_gt⟩
  refine (order.forall_of_forall_of_flip ?_ ?_ hp hq).1 lt
  · intro p _
    exact ⟨fun h => absurd h (lt_irrefl _), fun h => absurd h (lt_irrefl _)⟩
  · exact order.imp And.symm

/-! ## The sets of a sorted array -/

theorem sameSet_spec {buf : Bytes} {pos : Nat} {x : Looked} {records : List Nat}
    (hx : look buf pos = some x) (cls : x.header.cls = dnsCIn)
    (seen : ∀ p ∈ records, (look buf p).isSome)
    (ascending : (pos :: records).Pairwise fun p q => setKey buf p ≤ setKey buf q) :
    sameSet buf x.owner x.header.type records =
      some (records.filter fun p => setKey buf p = setKey buf pos,
        records.filter fun p => setKey buf p ≠ setKey buf pos) := by
  induction records with
  | nil => rfl
  | cons q records ih =>
    obtain ⟨y, hy⟩ := Option.isSome_iff_exists.mp (seen q List.mem_cons_self)
    obtain ⟨above, rest⟩ := List.pairwise_cons.mp ascending
    rw [sameSet, hy]
    simp only []
    by_cases same : setKey buf q = setKey buf pos
    · have alike := (setKey_eq_iff hx hy).mp same.symm
      rw [if_pos ⟨alike.owner, alike.type.symm, alike.cls.symm.trans cls⟩,
        ih (fun p hp => seen p (List.mem_cons_of_mem _ hp))
          (.cons (fun p hp => above p (List.mem_cons_of_mem _ hp)) rest.of_cons),
        List.filter_cons_of_pos (by simpa using same), List.filter_cons_of_neg (by simpa using same)]
      rfl
    · -- a greater key: everything behind it is greater too
      have greater : ∀ p ∈ q :: records, setKey buf p ≠ setKey buf pos := by
        intro p hp
        have less := lt_of_le_of_ne (above q List.mem_cons_self) (Ne.symm same)
        rcases List.mem_cons.mp hp with rfl | hp
        · exact same
        · exact (less.trans_le ((List.pairwise_cons.mp rest).1 p hp)).ne'
      rw [if_neg, List.filter_eq_nil_iff.mpr (fun p hp => by simpa using greater p hp),
        List.filter_eq_self.mpr (fun p hp => by simpa using greater p hp)]
      rintro ⟨owner, type, hcls⟩
      exact same ((setKey_eq_iff hx hy).mpr ⟨owner, type.symm, cls.trans hcls.symm⟩).symm

/-- The set a record starts, out of the records of an array. -/
def setAt (buf : Bytes) (records : List Nat) (pos : Nat) : RrSet where
  owner := (looked buf pos).owner
  type := (looked buf pos).header.type
  ttl := ttlget (looked buf pos).header.ttl
  records := records.filter fun p => setKey buf p = setKey buf pos

/-- Records that are in no set of interest can be taken out. -/
theorem setAt_filter {buf : Bytes} {records : List Nat} {pos other : Nat}
    (apart : setKey buf pos ≠ setKey buf other) :
    setAt buf (records.filter fun p => setKey buf p ≠ setKey buf other) pos =
      setAt buf records pos := by
  unfold setAt
  rw [List.filter_filter]
  congr 1
  refine List.filter_congr fun p _ => ?_
  by_cases same : setKey buf p = setKey buf pos
  · simp only [same, decide_true, Bool.true_and, decide_eq_true_eq]
    exact apart
  · simp only [same, decide_false, Bool.false_and]

theorem setAt_cons {buf : Bytes} {records : List Nat} {pos other : Nat}
    (apart : setKey buf other ≠ setKey buf pos) :
    setAt buf (other :: records) pos = setAt buf records pos := by
  unfold setAt
  rw [List.filter_cons_of_neg (by simpa using apart)]

/-- **The loop over an ascending array runs its body on one set for each key of class IN**, and on
nothing else. `firsts` are the records the sets start with. -/
theorem groupLoop_spec {buf : Bytes} (records : List Nat)
    (seen : ∀ p ∈ records, (look buf p).isSome)
    (ascending : records.Pairwise fun p q => setKey buf p ≤ setKey buf q) :
    ∃ firsts : List Nat,
      (∀ p ∈ firsts, p ∈ records ∧ (looked buf p).header.cls = dnsCIn) ∧
      (firsts.Pairwise fun p q => setKey buf p ≠ setKey buf q) ∧
      (∀ p ∈ records, (looked buf p).header.cls = dnsCIn →
        ∃ q ∈ firsts, setKey buf p = setKey buf q) ∧
      ∀ {σ ε : Type} (die : σ → ε) (body : RrSet → σ → Except ε σ) (s : σ),
        groupLoop die body buf records s =
          (firsts.map (setAt buf records)).foldlM (fun s g => body g s) s := by
  induction hn : records.length using Nat.strongRecOn generalizing records with
  | ind n ih =>
    cases records with
    | nil =>
      refine ⟨[], by simp, .nil, by simp, ?_⟩
      intro σ ε die body s
      rw [groupLoop]
      rfl
    | cons pos records =>
      obtain ⟨x, hx⟩ := Option.isSome_iff_exists.mp (seen pos List.mem_cons_self)
      have seen' : ∀ p ∈ records, (look buf p).isSome := fun p hp =>
        seen p (List.mem_cons_of_mem _ hp)
      have rest := (List.pairwise_cons.mp ascending).2
      rw [List.length_cons] at hn
      by_cases cls : x.header.cls = dnsCIn
      · have set := sameSet_spec hx cls seen' ascending
        obtain ⟨firsts, inside, once, all, runs⟩ :=
          ih _ (by rw [← hn]; exact Nat.lt_succ_of_le (List.length_filter_le ..))
            (records.filter fun p => setKey buf p ≠ setKey buf pos)
            (fun p hp => seen' p (List.mem_filter.mp hp).1) (rest.filter _) rfl
        have apart : ∀ p ∈ firsts, setKey buf p ≠ setKey buf pos := fun p hp =>
          of_decide_eq_true (List.mem_filter.mp (inside p hp).1).2
        refine ⟨pos :: firsts, ?_, .cons (fun p hp => (apart p hp).symm) once, ?_, ?_⟩
        · intro p hp
          rcases List.mem_cons.mp hp with rfl | hp
          · exact ⟨List.mem_cons_self, by rw [looked_of hx]; exact cls⟩
          · exact ⟨List.mem_cons_of_mem _ (List.mem_filter.mp (inside p hp).1).1, (inside p hp).2⟩
        · intro p hp hcls
          by_cases same : setKey buf p = setKey buf pos
          · exact ⟨pos, List.mem_cons_self, same⟩
          · rcases List.mem_cons.mp hp with rfl | hp
            · exact absurd rfl same
            · obtain ⟨q, hq, heq⟩ := all p (List.mem_filter.mpr ⟨hp, by simpa using same⟩) hcls
              exact ⟨q, List.mem_cons_of_mem _ hq, heq⟩
        · intro σ ε die body s
          have first : setAt buf (pos :: records) pos =
              ⟨x.owner, x.header.type, ttlget x.header.ttl,
                pos :: records.filter fun p => setKey buf p = setKey buf pos⟩ := by
            unfold setAt
            rw [looked_of hx, List.filter_cons_of_pos (by simp)]
          have others : firsts.map (setAt buf (pos :: records)) =
              firsts.map (setAt buf (records.filter fun p => setKey buf p ≠ setKey buf pos)) := by
            refine List.map_congr_left fun p hp => ?_
            rw [setAt_filter (apart p hp), setAt_cons (apart p hp).symm]
          rw [groupLoop, hx]
          simp only []
          rw [if_neg (not_not_intro cls), set, List.map_cons, first, others, List.foldlM_cons]
          simp only []
          cases body _ s with
          | error e => rfl
          | ok s => exact runs die body s
      · obtain ⟨firsts, inside, once, all, runs⟩ := ih _ (by omega) records seen' rest rfl
        have apart : ∀ p ∈ firsts, setKey buf pos ≠ setKey buf p := by
          intro p hp same
          obtain ⟨y, hy⟩ := Option.isSome_iff_exists.mp (seen' p (inside p hp).1)
          have hcls := (inside p hp).2
          rw [looked_of hy] at hcls
          exact cls (((setKey_eq_iff hx hy).mp same).cls.trans hcls)
        refine ⟨firsts, fun p hp => ⟨List.mem_cons_of_mem _ (inside p hp).1, (inside p hp).2⟩, once,
          ?_, ?_⟩
        · intro p hp hcls
          rcases List.mem_cons.mp hp with rfl | hp
          · rw [looked_of hx] at hcls
            exact absurd hcls cls
          · exact all p hp hcls
        · intro σ ε die body s
          rw [groupLoop, hx]
          simp only []
          rw [if_pos cls, runs]
          congr 1
          exact List.map_congr_left fun p hp => (setAt_cons (apart p hp)).symm

/-! ## Sorted, and set by set -/

/-- A record belongs to a set by its class, its type and its owner in any letter case. -/
def Belongs (buf : Bytes) (g : RrSet) (pos : Nat) : Prop :=
  (looked buf pos).header.cls = dnsCIn ∧ (looked buf pos).header.type = g.type ∧
    dnsDomainEqual g.owner (looked buf pos).owner = true

instance (buf : Bytes) (g : RrSet) : DecidablePred (Belongs buf g) := fun _ =>
  inferInstanceAs (Decidable (_ ∧ _))

/-- The records of class IN in a packet, divided into its record sets. -/
structure Divides (buf : Bytes) (ps : List Nat) (sets : List RrSet) : Prop where
  once : sets.Pairwise fun g h => ¬ (g.type = h.type ∧ dnsDomainEqual g.owner h.owner = true)
  whole : ∀ g ∈ sets, g.records ≠ [] ∧ g.records = ps.filter (Belongs buf g)
  all : ∀ p ∈ ps, (looked buf p).header.cls = dnsCIn → ∃ g ∈ sets, p ∈ g.records

theorem sorted_strict {buf : Bytes} {k pos : Nat} {ps : List Nat}
    (parsed : positions buf k pos = some ps) :
    (sorted buf ps).Pairwise fun p q => smaller buf p q = true := by
  refine HeapSort.sort_strict (smaller_iff buf) (List.pairwise_map.mpr ?_)
  refine (positions_spec parsed).2.imp fun lt same => ?_
  exact lt.2.ne (congrArg (fun key => (ofLex key).2) same)

theorem setKey_le_of_smaller {buf : Bytes} {p q : Nat} (h : smaller buf p q = true) :
    setKey buf p ≤ setKey buf q := by
  rcases Prod.Lex.toLex_lt_toLex.mp ((smaller_iff ..).mp h) with less | same
  · exact less.le
  · exact same.1.le

theorem mem_sorted {buf : Bytes} {ps : List Nat} {p : Nat} : p ∈ sorted buf ps ↔ p ∈ ps :=
  (HeapSort.sort_perm (smaller_iff buf) ps).mem_iff

/-- Within one set, the sorted array has the order of the packet. -/
theorem sorted_filter {buf : Bytes} {k pos : Nat} {ps : List Nat}
    (parsed : positions buf k pos = some ps) (key : Bytes ×ₗ ℕ ×ₗ Bytes) :
    ((sorted buf ps).filter fun p => setKey buf p = key) =
      ps.filter fun p => setKey buf p = key := by
  have perm := (HeapSort.sort_perm (smaller_iff buf) ps).filter fun p => setKey buf p = key
  refine perm.eq_of_pairwise
    (fun p q _ _ (lt : p < q) (back : q < p) => absurd lt back.not_gt) ?_ ?_
  · have strict := (sorted_strict parsed).filter fun p => decide (setKey buf p = key)
    refine strict.imp_of_mem ?_
    intro p q hp hq lt
    obtain ⟨inP, hp⟩ := List.mem_filter.mp hp
    obtain ⟨inQ, hq⟩ := List.mem_filter.mp hq
    have same := (of_decide_eq_true hp).trans (of_decide_eq_true hq).symm
    refine positions_mono parsed (mem_sorted.mp inP) (mem_sorted.mp inQ) ?_
    rcases Prod.Lex.toLex_lt_toLex.mp ((smaller_iff ..).mp lt) with less | later
    · exact absurd same less.ne
    · exact later.2
  · exact ((positions_spec parsed).2.imp And.left).filter _

/-- The set that starts with a record of class IN is what belongs to it. -/
theorem setAt_records {buf : Bytes} {k pos p : Nat} {ps : List Nat}
    (parsed : positions buf k pos = some ps) (hp : p ∈ ps)
    (cls : (looked buf p).header.cls = dnsCIn) :
    (setAt buf (sorted buf ps) p).records =
      ps.filter (Belongs buf (setAt buf (sorted buf ps) p)) := by
  refine (sorted_filter parsed _).trans (List.filter_congr fun q hq => ?_)
  obtain ⟨x, hx⟩ := Option.isSome_iff_exists.mp ((positions_spec parsed).1 p hp).2
  obtain ⟨y, hy⟩ := Option.isSome_iff_exists.mp ((positions_spec parsed).1 q hq).2
  rw [looked_of hx] at cls
  have same : setKey buf q = setKey buf p ↔ Belongs buf (setAt buf (sorted buf ps) p) q := by
    unfold Belongs setAt
    rw [eq_comm, setKey_eq_iff hx hy, looked_of hx, looked_of hy]
    constructor
    · intro alike
      exact ⟨alike.cls.symm.trans cls, alike.type.symm, alike.owner⟩
    · intro belongs
      exact ⟨belongs.2.2, belongs.2.1.symm, cls.trans belongs.1.symm⟩
  exact decide_eq_decide.mpr same

/-- **The records of a packet, sorted and taken set by set.** When all of them can be read, the
sort leaves the same positions in the strict linear order `smaller`; records of one type, class and
owner stand next to one another; and the loop behind it runs its body once on every record set of
class IN, each with all of its records in the order of the packet. -/
theorem groupLoop_sorted (buf : Bytes) (k posanswers : Nat) (ps : List Nat)
    (parsed : positions buf k posanswers = some ps) :
    (sorted buf ps).Perm ps ∧
      (sorted buf ps).Pairwise (fun p q => smaller buf p q = true) ∧
      (∀ p, ¬ smaller buf p p = true) ∧
      (∀ p q r, smaller buf p q = true → smaller buf q r = true → smaller buf p r = true) ∧
      (∀ p ∈ ps, ∀ q ∈ ps, p ≠ q → smaller buf p q = true ∨ smaller buf q p = true) ∧
      (∀ front p between q back, sorted buf ps = front ++ p :: between ++ q :: back →
        Alike (looked buf p) (looked buf q) → ∀ r ∈ between, Alike (looked buf p) (looked buf r)) ∧
      ∃ sets : List RrSet, Divides buf ps sets ∧
        ∀ {σ ε : Type} (die : σ → ε) (body : RrSet → σ → Except ε σ) (s : σ),
          groupLoop die body buf (sorted buf ps) s = sets.foldlM (fun s g => body g s) s := by
  have strict := sorted_strict parsed
  have seen : ∀ p ∈ ps, ∃ x, look buf p = some x := fun p hp =>
    Option.isSome_iff_exists.mp ((positions_spec parsed).1 p hp).2
  have ascending := strict.imp fun h => setKey_le_of_smaller h
  refine ⟨HeapSort.sort_perm (smaller_iff buf) ps, strict, smaller_irrefl buf,
    fun p q r => smaller_trans, ?_, ?_, ?_⟩
  · intro p hp q hq
    have total : (sorted buf ps).Pairwise fun p q =>
        p ≠ q → smaller buf p q = true ∨ smaller buf q p = true := strict.imp fun lt _ => .inl lt
    refine total.forall_of_forall_of_flip ?_ ?_ (mem_sorted.mpr hp) (mem_sorted.mpr hq)
    · intro p _ apart
      exact absurd rfl apart
    · exact total.imp fun h apart => (h apart.symm).symm
  · intro front p between q back heq alike r hr
    have inPs : ∀ z ∈ front ++ p :: between ++ q :: back, z ∈ ps := fun z hz =>
      mem_sorted.mp (heq ▸ hz)
    obtain ⟨x, hx⟩ := seen p (inPs p (by simp))
    obtain ⟨y, hy⟩ := seen q (inPs q (by simp))
    obtain ⟨z, hz⟩ := seen r (inPs r (by simp [hr]))
    rw [heq] at ascending
    have upper : setKey buf p ≤ setKey buf r := by
      refine (List.pairwise_cons.mp (List.pairwise_append.mp (List.pairwise_append.mp
        ascending).1).2.1).1 r hr
    have lower : setKey buf r ≤ setKey buf q :=
      (List.pairwise_append.mp ascending).2.2 r (by simp [hr]) q List.mem_cons_self
    rw [looked_of hx, looked_of hy] at alike
    have same := (setKey_eq_iff hx hy).mpr alike
    rw [looked_of hx, looked_of hz]
    exact (setKey_eq_iff hx hz).mp (le_antisymm upper (same ▸ lower))
  · obtain ⟨firsts, inside, once, all, runs⟩ := groupLoop_spec (sorted buf ps)
      (fun p hp => ((positions_spec parsed).1 p (mem_sorted.mp hp)).2) ascending
    have inPs : ∀ p ∈ firsts, p ∈ ps := fun p hp => mem_sorted.mp (inside p hp).1
    refine ⟨firsts.map (setAt buf (sorted buf ps)), ⟨?_, ?_, ?_⟩, runs⟩
    · refine List.pairwise_map.mpr (once.imp_of_mem fun {p q} hp hq apart same => apart ?_)
      obtain ⟨x, hx⟩ := seen p (inPs p hp)
      obtain ⟨y, hy⟩ := seen q (inPs q hq)
      have clsP := (inside p hp).2
      have clsQ := (inside q hq).2
      unfold setAt at same
      rw [looked_of hx] at clsP same
      rw [looked_of hy] at clsQ same
      exact (setKey_eq_iff hx hy).mpr ⟨same.2, same.1, clsP.trans clsQ.symm⟩
    · intro g hg
      obtain ⟨p, hp, rfl⟩ := List.mem_map.mp hg
      refine ⟨?_, setAt_records parsed (inPs p hp) (inside p hp).2⟩
      exact List.ne_nil_of_mem (List.mem_filter.mpr ⟨(inside p hp).1, decide_eq_true rfl⟩)
    · intro p hp cls
      obtain ⟨q, hq, same⟩ := all p (mem_sorted.mpr hp) cls
      exact ⟨_, List.mem_map_of_mem hq, List.mem_filter.mpr ⟨mem_sorted.mpr hp, decide_eq_true same⟩⟩

/-- Three records without data: the name servers of `a` in two spellings, and an address between
them. -/
def threeRecords : Bytes :=
  [1, 97, 0, 0, 2, 0, 1, 0, 0, 0, 60, 0, 0] ++
  [1, 98, 0, 0, 1, 0, 1, 0, 0, 0, 60, 0, 0] ++
  [1, 65, 0, 0, 2, 0, 1, 0, 0, 0, 60, 0, 0]

theorem groupLoop_threeRecords :
    positions threeRecords 3 0 = some [0, 13, 26] ∧
      (sorted threeRecords [0, 13, 26]).Perm [0, 13, 26] ∧
      ∃ sets, Divides threeRecords [0, 13, 26] sets := by
  have parsed : positions threeRecords 3 0 = some [0, 13, 26] := by decide +kernel
  obtain ⟨perm, _, _, _, _, _, sets, divides, _⟩ :=
    groupLoop_sorted threeRecords 3 0 [0, 13, 26] parsed
  exact ⟨parsed, perm, sets, divides⟩

end TinyDnssec.Dnscache
