import TinyDnssec.Base.Bytes

/-!
# Which zone a name belongs to

`tinydns-sign` keeps the records of each name in a table, and `findControl` enters each name into the
zone that signs it: the apex is the next name upwards with an SOA record, and there is none where a
delegation lies in between. The search goes up to the next name that the table has, searches for that
one's zone in turn and keeps what it finds, so that it is made once for each name.

The names come in the order of a Perl hash, which is any order. What the searches leave behind does not
depend on it (`controlAll_iff`).

What the records of a name say is not looked at, only their types.
-/

namespace TinyDnssec.Sign

open Octets

/-! ## The table -/

/-- `%main::names`: each name with the types it has records of. -/
abbrev Names := List (Bytes × List Nat)

/-- `exists($main::names{$name})` -/
def Names.has (names : Names) (name : Bytes) : Bool := (names.lookup name).isSome

/-- `keys %{$rec->{byType}}` -/
def Names.types (names : Names) (name : Bytes) : List Nat := (names.lookup name).getD []

/-- What `$anc` is in each turn of `while ($anc =~ /^[^.]*\./) { $anc = $'; … }`. -/
def ancestors : Bytes → List Bytes
  | [] => []
  | c :: s => if c = 46 then s :: ancestors s else ancestors s

/-- What `findControl` writes: `control` of each name that has one, the pairs of a zone and a name in
it, and `@main::zones`. -/
structure Controls where
  control : List (Bytes × Bytes)
  zone : List (Bytes × Bytes)
  zones : List Bytes

/-- `Records::new` puts each name into a zone of its own. -/
def Controls.start (names : Names) : Controls where
  control := []
  zone := names.map fun rec => (rec.1, rec.1)
  zones := []

/-- `$rec->{control}` -/
def Controls.of (s : Controls) (dom : Bytes) : Option Bytes := s.control.lookup dom

/-- `$rec->{control} = $control; $ctl_rec->{zone}->{$dom} = $rec` -/
def Controls.enter (s : Controls) (control dom : Bytes) : Controls :=
  { s with control := (dom, control) :: s.control, zone := s.zone.insert (control, dom) }

/-! ## `findControl` -/

/-- The body of the search behind `&findControl($ctl_rec)`. -/
def settle (names : Names) (dom anc : Bytes) (s : Controls) : Controls :=
  match s.of anc with
  | none => s
  | some control =>
    let control := if 2 ∈ names.types anc then anc else control
    if 6 ∈ names.types control then s.enter control dom else s

/-- A call for a name whose search is given. -/
def visit (names : Names) (dom : Bytes) (search : Controls → Controls) (s : Controls) : Controls :=
  if (s.of dom).isSome then s
  else if 6 ∈ names.types dom then
    let s := s.enter dom dom
    { s with zones := s.zones ++ [dom] }
  else search s

/-- The search for a name, along what is left of the names above it. -/
def climb (names : Names) (dom : Bytes) : List Bytes → Controls → Controls
  | [], s => s
  | anc :: rest, s =>
    if names.has anc then settle names dom anc (visit names anc (climb names anc rest) s)
    else climb names dom rest s

def findControl (names : Names) (s : Controls) (dom : Bytes) : Controls :=
  visit names dom (climb names dom (ancestors dom)) s

/-- The loop over the table. A zone with a key and without parameters ends the program. -/
def controlAll (names : Names) (order : List Bytes) : Option Controls :=
  if ∃ dom ∈ order, 48 ∈ names.types dom ∧ 6 ∈ names.types dom ∧ 51 ∉ names.types dom then none
  else some (order.foldl (findControl names) (.start names))

/-! ## The zone of a name -/

/-- **The zone that signs a name**: its apex is the name itself or the next one upwards with an SOA
record, and no name above `dom` and below the apex is a delegation. -/
def Governs (names : Names) (apex dom : Bytes) : Prop :=
  6 ∈ names.types apex ∧ ∃ below, dom :: ancestors dom = below ++ apex :: ancestors apex ∧
    (∀ anc ∈ below, 6 ∉ names.types anc) ∧ ∀ anc ∈ below.tail, 2 ∉ names.types anc

/-- What a name takes from the names above it. -/
def inherited (names : Names) : List Bytes → Option Bytes
  | [] => none
  | anc :: rest =>
    if names.has anc then
      (if 6 ∈ names.types anc then some anc else inherited names rest).bind fun control =>
        let control := if 2 ∈ names.types anc then anc else control
        if 6 ∈ names.types control then some control else none
    else inherited names rest

/-- The zone of a name, searched without a memory. -/
def controlOf (names : Names) (dom : Bytes) : Option Bytes :=
  if 6 ∈ names.types dom then some dom else inherited names (ancestors dom)

section

variable {names : Names}

theorem ancestors_tail {dom anc : Bytes} {front rest : List Bytes}
    (h : ancestors dom = front ++ anc :: rest) : rest = ancestors anc := by
  induction dom generalizing front with
  | nil => exact absurd h.symm (List.append_ne_nil_of_right_ne_nil front (List.cons_ne_nil _ _))
  | cons c s ih =>
    unfold ancestors at h
    split at h
    · cases front with
      | nil =>
        obtain ⟨rfl, rfl⟩ := List.cons.inj h
        rfl
      | cons f front => exact ih (List.cons.inj h).2
    · exact ih h

theorem length_ancestors {dom anc : Bytes} (h : anc ∈ ancestors dom) : anc.length < dom.length := by
  induction dom with
  | nil => cases h
  | cons c s ih =>
    unfold ancestors at h
    rw [List.length_cons]
    split at h
    · rcases List.mem_cons.mp h with rfl | h
      · exact Nat.lt_succ_self _
      · exact Nat.lt_succ_of_lt (ih h)
    · exact Nat.lt_succ_of_lt (ih h)

/-- A name that is not in the table has no records. -/
theorem has_of_type {name : Bytes} {type : Nat} (h : type ∈ names.types name) :
    names.has name = true := by
  unfold Names.types at h
  unfold Names.has
  cases hrec : names.lookup name with
  | none =>
    rw [hrec] at h
    cases h
  | some types => rfl

theorem types_of_not_has {name : Bytes} (h : ¬ names.has name = true) : names.types name = [] := by
  apply List.eq_nil_iff_forall_not_mem.mpr
  exact fun type htype => h (has_of_type htype)

/-- The search without a memory goes up to the first SOA record, past names that are no delegation. -/
theorem inherited_iff {ancs : List Bytes} (tails : ∀ front anc rest, ancs = front ++ anc :: rest →
    rest = ancestors anc) {apex : Bytes} : inherited names ancs = some apex ↔ 6 ∈ names.types apex ∧
      ∃ between, ancs = between ++ apex :: ancestors apex ∧
        ∀ anc ∈ between, 6 ∉ names.types anc ∧ 2 ∉ names.types anc := by
  induction ancs with
  | nil =>
    constructor
    · intro h
      cases h
    · rintro ⟨-, between, h, -⟩
      exact absurd h.symm (List.append_ne_nil_of_right_ne_nil between (List.cons_ne_nil _ _))
  | cons anc rest ih =>
    have ih := ih fun front anc' rest' h => tails (anc :: front) anc' rest' (congrArg (anc :: ·) h)
    have skip (noSoa : 6 ∉ names.types anc) : (∃ between, anc :: rest = between ++ apex :: ancestors apex ∧
        ∀ a ∈ between, 6 ∉ names.types a ∧ 2 ∉ names.types a) ∧ 6 ∈ names.types apex ↔
          2 ∉ names.types anc ∧ inherited names rest = some apex := by
      rw [ih]
      constructor
      · rintro ⟨⟨between, hsplit, hplain⟩, hsoa⟩
        cases between with
        | nil => exact absurd hsoa ((List.cons.inj hsplit).1 ▸ noSoa)
        | cons b between =>
          obtain ⟨rfl, hrest⟩ := List.cons.inj hsplit
          exact ⟨(hplain anc List.mem_cons_self).2, hsoa, between, hrest,
            fun a ha => hplain a (List.mem_cons_of_mem anc ha)⟩
      · rintro ⟨hdelegated, hsoa, between, rfl, hplain⟩
        refine ⟨⟨anc :: between, rfl, ?_⟩, hsoa⟩
        intro a ha
        rcases List.mem_cons.mp ha with rfl | ha
        · exact ⟨noSoa, hdelegated⟩
        · exact hplain a ha
    unfold inherited
    by_cases hhas : names.has anc = true
    · rw [if_pos hhas]
      by_cases hsoa : 6 ∈ names.types anc
      · rw [if_pos hsoa, Option.bind_some]
        simp only [ite_self, if_pos hsoa, Option.some_inj]
        constructor
        · rintro rfl
          refine ⟨hsoa, [], ?_, fun a ha => by cases ha⟩
          exact congrArg (anc :: ·) (tails [] anc rest rfl)
        · rintro ⟨-, between, hsplit, hplain⟩
          cases between with
          | nil => exact (List.cons.inj hsplit).1
          | cons b between =>
            exact absurd hsoa ((List.cons.inj hsplit).1 ▸ (hplain b List.mem_cons_self).1)
      · rw [if_neg hsoa, and_comm, skip hsoa]
        by_cases hdelegated : 2 ∈ names.types anc
        · simp only [if_pos hdelegated, if_neg hsoa]
          constructor
          · intro h
            obtain ⟨_, _, h⟩ := Option.bind_eq_some_iff.mp h
            cases h
          · exact fun h => absurd hdelegated h.1
        · simp only [if_neg hdelegated]
          constructor
          · intro h
            obtain ⟨control, hcontrol, h⟩ := Option.bind_eq_some_iff.mp h
            split at h
            · cases h
              exact ⟨hdelegated, hcontrol⟩
            · cases h
          · rintro ⟨-, h⟩
            rw [h, Option.bind_some, if_pos (skip hsoa |>.mpr ⟨hdelegated, h⟩).2]
    · have hnone := types_of_not_has hhas
      have hsoa : 6 ∉ names.types anc := hnone ▸ List.not_mem_nil
      rw [if_neg hhas, and_comm, skip hsoa]
      exact ⟨fun h => ⟨hnone ▸ List.not_mem_nil, h⟩, fun h => h.2⟩

/-- **The search without a memory finds the zone that governs.** -/
theorem controlOf_iff {dom apex : Bytes} : controlOf names dom = some apex ↔ Governs names apex dom := by
  have tails : ∀ front anc rest, ancestors dom = front ++ anc :: rest → rest = ancestors anc :=
    fun _ _ _ => ancestors_tail
  unfold controlOf Governs
  by_cases hsoa : 6 ∈ names.types dom
  · rw [if_pos hsoa, Option.some_inj]
    constructor
    · rintro rfl
      refine ⟨hsoa, [], rfl, ?_, ?_⟩ <;> (intro anc hanc; cases hanc)
    · rintro ⟨-, below, hsplit, hplain, -⟩
      cases below with
      | nil => exact (List.cons.inj hsplit).1
      | cons b below => exact absurd hsoa ((List.cons.inj hsplit).1 ▸ hplain b List.mem_cons_self)
  · rw [if_neg hsoa, inherited_iff tails]
    refine and_congr_right fun hhome => ?_
    constructor
    · rintro ⟨between, hsplit, hplain⟩
      refine ⟨dom :: between, congrArg (dom :: ·) hsplit, ?_, fun a ha => (hplain a ha).2⟩
      intro a ha
      rcases List.mem_cons.mp ha with rfl | ha
      · exact hsoa
      · exact (hplain a ha).1
    · rintro ⟨below, hsplit, hplain, hdelegated⟩
      cases below with
      | nil => exact absurd hhome ((List.cons.inj hsplit).1 ▸ hsoa)
      | cons b between =>
        exact ⟨between, (List.cons.inj hsplit).2,
          fun a ha => ⟨hplain a (List.mem_cons_of_mem b ha), hdelegated a ha⟩⟩

/-! ## What the searches keep -/

/-- What has been found so far is right. -/
structure Memo (names : Names) (s : Controls) : Prop where
  known : ∀ dom control, s.of dom = some control →
    names.has dom = true ∧ controlOf names dom = some control
  zone : ∀ apex dom, (apex, dom) ∈ s.zone ↔ names.has dom = true ∧ apex = dom ∨ s.of dom = some apex
  once : s.zone.Nodup
  zones : ∀ apex, apex ∈ s.zones ↔ s.of apex = some apex
  zonesOnce : s.zones.Nodup

/-- What was found stays. -/
def Grows (s s' : Controls) : Prop := ∀ dom control, s.of dom = some control → s'.of dom = some control

theorem Grows.refl (s : Controls) : Grows s s := fun _ _ => id

theorem Grows.trans {s s' s'' : Controls} (h : Grows s s') (h' : Grows s' s'') : Grows s s'' :=
  fun dom control found => h' dom control (h dom control found)

@[simp] theorem of_enter (s : Controls) (control dom d : Bytes) :
    (s.enter control dom).of d = if d = dom then some control else s.of d := by
  unfold Controls.of Controls.enter
  rw [List.lookup_cons]
  by_cases h : d = dom
  · rw [if_pos h, h, beq_self_eq_true]
  · rw [if_neg h, beq_eq_false_iff_ne.mpr h]

/-- A name is entered into its zone. -/
theorem Memo.enter {s : Controls} (memo : Memo names s) {control dom : Bytes} (there : names.has dom = true)
    (right : controlOf names dom = some control) : Grows s (s.enter control dom) ∧
      (∀ d c, (s.enter control dom).of d = some c → names.has d = true ∧ controlOf names d = some c) ∧
      (∀ apex d, (apex, d) ∈ (s.enter control dom).zone ↔
        names.has d = true ∧ apex = d ∨ (s.enter control dom).of d = some apex) ∧
      (s.enter control dom).zone.Nodup := by
  have same {c : Bytes} (h : s.of dom = some c) : c = control :=
    Option.some_inj.mp ((memo.known dom c h).2.symm.trans right)
  refine ⟨?_, ?_, ?_, memo.once.insert⟩
  · intro d c h
    rw [of_enter]
    split
    · rename_i hd
      exact congrArg some (same (hd ▸ h)).symm
    · exact h
  · intro d c h
    rw [of_enter] at h
    split at h
    · rename_i hd
      rw [hd, ← Option.some_inj.mp h]
      exact ⟨there, right⟩
    · exact memo.known d c h
  · intro apex d
    have hzone : (s.enter control dom).zone = s.zone.insert (control, dom) := rfl
    rw [hzone, List.mem_insert_iff, memo.zone, of_enter, Prod.mk.injEq]
    by_cases hd : d = dom
    · subst hd
      simp only [and_true, ↓reduceIte, Option.some_inj]
      constructor
      · rintro (rfl | h | h)
        · exact .inr rfl
        · exact .inl h
        · exact .inr (same h).symm
      · rintro (h | rfl)
        · exact .inr (.inl h)
        · exact .inl rfl
    · rw [if_neg hd]
      simp only [hd, and_false, false_or]

/-- A name without an SOA record is entered below its apex. -/
theorem Memo.enterBelow {s : Controls} (memo : Memo names s) {control dom : Bytes}
    (there : names.has dom = true) (plain : 6 ∉ names.types dom)
    (right : controlOf names dom = some control) : Memo names (s.enter control dom) := by
  obtain ⟨-, known, zone, once⟩ := memo.enter there right
  have other : control ≠ dom := by
    rintro rfl
    exact plain (controlOf_iff.mp right).1
  refine ⟨known, zone, once, ?_, memo.zonesOnce⟩
  intro apex
  rw [of_enter]
  have hzones : (s.enter control dom).zones = s.zones := rfl
  rw [hzones, memo.zones]
  split
  · rename_i hdom
    subst hdom
    constructor
    · exact fun h => absurd (Option.some_inj.mp ((memo.known apex apex h).2.symm.trans right)) other.symm
    · exact fun h => absurd (Option.some_inj.mp h) other
  · rfl

/-- The end of a search, behind the search for the ancestor. -/
theorem settle_spec {s : Controls} (memo : Memo names s) {dom anc : Bytes} (there : names.has dom = true)
    (plain : 6 ∉ names.types dom) (found : s.of anc = controlOf names anc)
    (right : controlOf names dom = (controlOf names anc).bind fun control =>
      let control := if 2 ∈ names.types anc then anc else control
      if 6 ∈ names.types control then some control else none) :
    Memo names (settle names dom anc s) ∧ Grows s (settle names dom anc s) ∧
      (s.of dom = none → (settle names dom anc s).of dom = controlOf names dom) := by
  unfold settle
  rw [found]
  cases hanc : controlOf names anc with
  | none =>
    rw [hanc] at right
    exact ⟨memo, .refl s, fun h => h.trans right.symm⟩
  | some control =>
    rw [hanc, Option.bind_some] at right
    simp only [] at right ⊢
    generalize (if 2 ∈ names.types anc then anc else control) = control at right ⊢
    by_cases hhome : 6 ∈ names.types control
    · rw [if_pos hhome] at right ⊢
      refine ⟨memo.enterBelow there plain right, (memo.enter there right).1, fun _ => ?_⟩
      rw [of_enter, if_pos rfl, right]
    · rw [if_neg hhome] at right ⊢
      exact ⟨memo, .refl s, fun h => h.trans right.symm⟩

/-- A call, where the search is right. -/
theorem visit_spec {dom : Bytes} {search : Controls → Controls} (there : names.has dom = true)
    (right : ∀ s, Memo names s → 6 ∉ names.types dom → s.of dom = none → Memo names (search s) ∧
      Grows s (search s) ∧ (search s).of dom = controlOf names dom) {s : Controls}
    (memo : Memo names s) : Memo names (visit names dom search s) ∧ Grows s (visit names dom search s) ∧
      (visit names dom search s).of dom = controlOf names dom := by
  unfold visit
  split
  · rename_i hknown
    obtain ⟨control, hcontrol⟩ := Option.isSome_iff_exists.mp hknown
    exact ⟨memo, .refl s, hcontrol.trans (memo.known dom control hcontrol).2.symm⟩
  · rename_i hknown
    have hnone : s.of dom = none := Option.not_isSome_iff_eq_none.mp hknown
    split
    · rename_i hsoa
      have hself : controlOf names dom = some dom := if_pos hsoa
      obtain ⟨grows, known, zone, once⟩ := memo.enter there hself
      refine ⟨⟨known, zone, once, ?_, ?_⟩, grows, ?_⟩
      · intro apex
        have hof : ({ s.enter dom dom with zones := (s.enter dom dom).zones ++ [dom] } : Controls).of apex =
            if apex = dom then some dom else s.of apex := of_enter s dom dom apex
        rw [hof]
        have hzones : (s.enter dom dom).zones = s.zones := rfl
        simp only [hzones, List.mem_append, List.mem_singleton, memo.zones]
        split
        · rename_i happex
          exact ⟨fun _ => congrArg some happex.symm, fun _ => .inr happex⟩
        · rename_i happex
          exact ⟨fun h => h.resolve_right happex, .inl⟩
      · refine List.nodup_append.mpr ⟨memo.zonesOnce, List.nodup_singleton dom, ?_⟩
        intro apex happex b hb heq
        have happex : s.of apex = some apex := (memo.zones apex).mp happex
        rw [heq, List.mem_singleton.mp hb, hnone] at happex
        cases happex
      · exact (of_enter s dom dom dom).trans ((if_pos rfl).trans hself.symm)
    · rename_i hsoa
      exact right s memo hsoa hnone

/-- **The search for a name keeps what has been found and finds the zone of the name.** -/
theorem climb_spec {dom : Bytes} {ancs : List Bytes} (tails : ∀ front anc rest,
    ancs = front ++ anc :: rest → rest = ancestors anc) (there : names.has dom = true)
    (right : controlOf names dom = inherited names ancs) {s : Controls} (memo : Memo names s)
    (plain : 6 ∉ names.types dom) (fresh : s.of dom = none) :
    Memo names (climb names dom ancs s) ∧ Grows s (climb names dom ancs s) ∧
      (climb names dom ancs s).of dom = controlOf names dom := by
  induction ancs generalizing dom s with
  | nil => exact ⟨memo, .refl s, fresh.trans right.symm⟩
  | cons anc rest ih =>
    have htails : ∀ front anc' rest', rest = front ++ anc' :: rest' → rest' = ancestors anc' :=
      fun front anc' rest' h => tails (anc :: front) anc' rest' (congrArg (anc :: ·) h)
    have hrest : rest = ancestors anc := tails [] anc rest rfl
    unfold climb
    unfold inherited at right
    by_cases hhas : names.has anc = true
    · rw [if_pos hhas] at right ⊢
      have hcontrol : (if 6 ∈ names.types anc then some anc else inherited names rest) =
          controlOf names anc := by
        rw [hrest]
        rfl
      rw [hcontrol] at right
      obtain ⟨memo', grows, found⟩ := @visit_spec names anc (climb names anc rest) hhas
        (fun s memo plain fresh => ih htails hhas (by rw [← hcontrol, if_neg plain]) memo plain fresh) s memo
      obtain ⟨memo'', grows', ends⟩ := settle_spec memo' there plain found right
      refine ⟨memo'', grows.trans grows', ?_⟩
      cases hdom : (visit names anc (climb names anc rest) s).of dom with
      | none => exact ends hdom
      | some control => exact (grows' dom control hdom).trans (memo'.known dom control hdom).2.symm
    · rw [if_neg hhas] at right ⊢
      exact ih htails there right memo plain fresh

theorem findControl_spec {dom : Bytes} (there : names.has dom = true) {s : Controls}
    (memo : Memo names s) : Memo names (findControl names s dom) ∧ Grows s (findControl names s dom) ∧
      (findControl names s dom).of dom = controlOf names dom := by
  refine visit_spec there ?_ memo
  intro s memo plain fresh
  exact climb_spec (fun _ _ _ => ancestors_tail) there (if_neg plain) memo plain fresh

/-! ## The whole table -/

theorem has_iff {name : Bytes} : names.has name = true ↔ name ∈ names.map Prod.fst := by
  unfold Names.has
  rw [List.lookup_isSome_iff, List.mem_map]
  constructor
  · rintro ⟨rec, hrec, hname⟩
    exact ⟨rec, hrec, (eq_of_beq hname).symm⟩
  · rintro ⟨rec, hrec, rfl⟩
    exact ⟨rec, hrec, beq_self_eq_true rec.1⟩

theorem memo_start (nodup : (names.map Prod.fst).Nodup) : Memo names (.start names) := by
  refine ⟨?_, ?_, ?_, ?_, List.nodup_nil⟩
  · intro dom control h
    cases h
  · intro apex dom
    have hnone : (Controls.start names).of dom ≠ some apex := by
      intro h
      cases h
    have hzone : (Controls.start names).zone = names.map fun rec => (rec.1, rec.1) := rfl
    rw [hzone, List.mem_map, has_iff, List.mem_map, or_iff_left hnone]
    simp only [Prod.mk.injEq]
    constructor
    · rintro ⟨rec, hrec, rfl, rfl⟩
      exact ⟨⟨rec, hrec, rfl⟩, rfl⟩
    · rintro ⟨⟨rec, hrec, rfl⟩, rfl⟩
      exact ⟨rec, hrec, rfl, rfl⟩
  · have hpairs : (Controls.start names).zone = (names.map Prod.fst).map fun name => (name, name) := by
      rw [List.map_map]
      rfl
    rw [hpairs]
    exact nodup.map fun a b h => congrArg Prod.fst h
  · intro apex
    constructor
    · intro h
      cases h
    · intro h
      cases h

theorem foldl_findControl {order : List Bytes} (there : ∀ dom ∈ order, names.has dom = true)
    {s : Controls} (memo : Memo names s) : Memo names (order.foldl (findControl names) s) ∧
      Grows s (order.foldl (findControl names) s) ∧
      ∀ dom ∈ order, (order.foldl (findControl names) s).of dom = controlOf names dom := by
  induction order generalizing s with
  | nil => exact ⟨memo, .refl s, fun dom h => absurd h List.not_mem_nil⟩
  | cons dom order ih =>
    have hthere := there dom List.mem_cons_self
    obtain ⟨memo', grows, found⟩ := findControl_spec hthere memo
    obtain ⟨memo'', grows', ends⟩ := ih (fun d hd => there d (List.mem_cons_of_mem dom hd)) memo'
    rw [List.foldl_cons]
    refine ⟨memo'', grows.trans grows', ?_⟩
    intro d hd
    rcases List.mem_cons.mp hd with rfl | hd
    · cases hcontrol : controlOf names d with
      | some control => exact grows' d control (found.trans hcontrol)
      | none =>
        cases hof : (order.foldl (findControl names) (findControl names s d)).of d with
        | none => rfl
        | some control => exact absurd (hcontrol.symm.trans (memo''.known d control hof).2) nofun
    · exact ends d hd

/-- Every name of the table gets the zone that is found without a memory. -/
theorem controlAll_memo (nodup : (names.map Prod.fst).Nodup) {order : List Bytes}
    (perm : order.Perm (names.map Prod.fst)) {s : Controls} (run : controlAll names order = some s) :
    Memo names s ∧ ∀ dom, names.has dom = true → s.of dom = controlOf names dom := by
  unfold controlAll at run
  split at run
  · cases run
  · cases run
    obtain ⟨memo, -, ends⟩ := foldl_findControl (fun dom hdom => has_iff.mpr (perm.mem_iff.mp hdom))
      (memo_start nodup)
    exact ⟨memo, fun dom hdom => ends dom (perm.mem_iff.mpr (has_iff.mp hdom))⟩

/-- A name that is governed and has records, or is an apex, is in the table. -/
theorem of_iff {s : Controls} (memo : Memo names s)
    (found : ∀ dom, names.has dom = true → s.of dom = controlOf names dom) {apex dom : Bytes} :
    s.of dom = some apex ↔ names.has dom = true ∧ Governs names apex dom := by
  constructor
  · intro h
    obtain ⟨there, right⟩ := memo.known dom apex h
    exact ⟨there, controlOf_iff.mp right⟩
  · rintro ⟨there, governs⟩
    exact (found dom there).trans (controlOf_iff.mpr governs)

/-- **What `findControl` leaves behind, in whatever order the names come**: each name has the zone that
governs it and no other, each zone has the names it governs, and each apex is listed once. -/
theorem controlAll_iff (nodup : (names.map Prod.fst).Nodup) {order : List Bytes}
    (perm : order.Perm (names.map Prod.fst)) {s : Controls} (run : controlAll names order = some s) :
    (∀ dom apex, s.of dom = some apex ↔ names.has dom = true ∧ Governs names apex dom) ∧
    (∀ apex, 6 ∈ names.types apex → ∀ dom, (apex, dom) ∈ s.zone ↔
      names.has dom = true ∧ Governs names apex dom) ∧
    s.zone.Nodup ∧ (∀ apex, apex ∈ s.zones ↔ 6 ∈ names.types apex) ∧ s.zones.Nodup := by
  obtain ⟨memo, found⟩ := controlAll_memo nodup perm run
  have itself {apex : Bytes} (hsoa : 6 ∈ names.types apex) : Governs names apex apex :=
    controlOf_iff.mp (if_pos hsoa)
  refine ⟨fun dom apex => of_iff memo found, ?_, memo.once, ?_, memo.zonesOnce⟩
  · intro apex hsoa dom
    rw [memo.zone, of_iff memo found]
    constructor
    · rintro (⟨there, rfl⟩ | h)
      · exact ⟨there, itself hsoa⟩
      · exact h
    · exact .inr
  · intro apex
    rw [memo.zones, of_iff memo found]
    exact ⟨fun h => h.2.1, fun hsoa => ⟨has_of_type hsoa, itself hsoa⟩⟩

/-- A zone with a delegation, and an address below each of them. -/
def delegatingTable : Names :=
  [(ascii "z", [2, 6]), (ascii "a.b.z", [1]), (ascii "d.z", [2]), (ascii "n.d.z", [1])]

theorem controlAll_iff_delegatingTable : ∃ s,
    controlAll delegatingTable (delegatingTable.map Prod.fst).reverse = some s ∧
      s.of (ascii "d.z") = some (ascii "z") ∧ s.of (ascii "n.d.z") = none := by
  refine ⟨_, if_neg (by decide), ?_⟩
  obtain ⟨control, -⟩ := @controlAll_iff delegatingTable (by decide) _
    (List.reverse_perm (delegatingTable.map Prod.fst)) _ (if_neg (by decide))
  constructor
  · exact (control _ _).mpr ⟨by decide, by decide, [ascii "d.z"], by decide, by decide, by decide⟩
  · have hnone : controlOf delegatingTable (ascii "n.d.z") = none := by decide
    rw [Option.eq_none_iff_forall_ne_some]
    intro apex h
    exact nomatch hnone.symm.trans (controlOf_iff.mpr ((control _ _).mp h).2)

end

end TinyDnssec.Sign
