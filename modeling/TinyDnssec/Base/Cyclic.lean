import TinyDnssec.Base.Bytes

/-!
# Predecessors on a circle of sorted elements

A finite set of a linear order, read as a circle: past the greatest element comes the least one.
`IsPrevious q S p` says that `p` is the greatest element of `S` with the property `q`, or the
greatest of all when none has it. With `q` "smaller than `d`", that is the element `d` falls
behind on the circle.

A set cut into buckets by a monotone key is searched one bucket at a time: `search_isPrevious` says
that a bucket, preceded by the element the buckets before it end with, is enough to find the
predecessor of any point of that bucket.
-/

namespace Cyclic

variable {α β : Type} [LinearOrder α] [LinearOrder β]

/-- `p` is the greatest element of `S` with `q`, or the greatest of all when none has `q`. -/
def IsPrevious (q : α → Prop) (S : List α) (p : α) : Prop :=
  p ∈ S ∧ ((q p ∧ ∀ x ∈ S, q x → x ≤ p) ∨ ((∀ x ∈ S, ¬ q x) ∧ ∀ x ∈ S, x ≤ p))

/-- `L` lists the elements of `S` with `q`, in ascending order and once each. -/
def Lists (q : α → Prop) (S L : List α) : Prop :=
  L.Pairwise (· < ·) ∧ ∀ x, x ∈ L ↔ x ∈ S ∧ q x

theorem IsPrevious.unique {q : α → Prop} {S : List α} {p p' : α}
    (h : IsPrevious q S p) (h' : IsPrevious q S p') : p = p' := by
  obtain ⟨mem, ⟨hq, top⟩ | ⟨hnone, top⟩⟩ := h
  · obtain ⟨mem', ⟨hq', top'⟩ | ⟨hnone', _⟩⟩ := h'
    · exact le_antisymm (top' p mem hq) (top p' mem' hq')
    · exact absurd hq (hnone' p mem)
  · obtain ⟨mem', ⟨hq', _⟩ | ⟨_, top'⟩⟩ := h'
    · exact absurd hq' (hnone p' mem')
    · exact le_antisymm (top' p mem) (top p' mem')

/-- A property of `S` that only counts its elements does not see their order. -/
theorem IsPrevious.congr {q : α → Prop} {S T : List α} {p : α} (same : ∀ x, x ∈ S ↔ x ∈ T)
    (h : IsPrevious q S p) : IsPrevious q T p := by
  obtain ⟨mem, rest⟩ := h
  refine ⟨(same p).mp mem, rest.imp ?_ ?_⟩
  · exact fun ⟨hq, top⟩ => ⟨hq, fun x hx => top x ((same x).mpr hx)⟩
  · exact fun ⟨hnone, top⟩ => ⟨fun x hx => hnone x ((same x).mpr hx),
      fun x hx => top x ((same x).mpr hx)⟩

theorem Lists.unique {q : α → Prop} {S L L' : List α} (h : Lists q S L) (h' : Lists q S L') :
    L = L' := by
  refine List.Perm.eq_of_pairwise ?_ h.1 h'.1 ?_
  · exact fun a b _ _ ab ba => absurd ba (lt_asymm ab)
  · exact (List.perm_ext_iff_of_nodup (h.1.imp ne_of_lt) (h'.1.imp ne_of_lt)).mpr
      fun x => (h.2 x).trans (h'.2 x).symm

/-- The last element of an ascending list is its greatest. -/
theorem le_getLast_of_pairwise {L : List α} (sorted : L.Pairwise (· < ·)) (ne : L ≠ []) :
    ∀ x ∈ L, x ≤ L.getLast ne := by
  intro x hx
  rw [← List.dropLast_append_getLast ne] at sorted hx
  rcases List.mem_append.mp hx with hx | hx
  · exact le_of_lt ((List.pairwise_append.mp sorted).2.2 x hx _ (List.mem_singleton_self _))
  · exact le_of_eq (List.mem_singleton.mp hx)

/-- The last of the elements with `q`, read off an ascending list. -/
theorem isPrevious_getLast_filter {q : α → Prop} [DecidablePred q] {L : List α}
    (sorted : L.Pairwise (· < ·)) (ne : L.filter (fun x => decide (q x)) ≠ []) :
    IsPrevious q L ((L.filter (fun x => decide (q x))).getLast ne) := by
  have mem := List.mem_filter.mp (List.getLast_mem ne)
  refine ⟨mem.1, .inl ⟨of_decide_eq_true mem.2, fun x hx hq => ?_⟩⟩
  exact le_getLast_of_pairwise (sorted.filter _) ne x
    (List.mem_filter.mpr ⟨hx, decide_eq_true hq⟩)

/-! ## Searching a bucket -/

/-- Walk a list as long as its elements lie below `d`; the last one passed, or `cur`. -/
def search (d : α) : α → List α → α
  | cur, [] => cur
  | cur, x :: xs => if x < d then search d x xs else cur

/-- The search ends on the last element below `d`, where there is one. -/
theorem search_spec {d : α} : ∀ {xs : List α} {cur : α}, xs.Pairwise (· < ·) →
    (search d cur xs = cur ∧ ∀ x ∈ xs, ¬ x < d) ∨
      (search d cur xs ∈ xs ∧ search d cur xs < d ∧ ∀ x ∈ xs, x < d → x ≤ search d cur xs)
  | [], _, _ => .inl ⟨rfl, fun _ h => absurd h List.not_mem_nil⟩
  | x :: xs, cur, sorted => by
    have head := (List.pairwise_cons.mp sorted).1
    by_cases hx : x < d
    · simp only [search, if_pos hx]
      rcases search_spec (d := d) (List.pairwise_cons.mp sorted).2 with ⟨same, hnone⟩ | ⟨mem, lt, top⟩
      · rw [same]
        refine .inr ⟨List.mem_cons_self, hx, fun y hy hlt => ?_⟩
        rcases List.mem_cons.mp hy with rfl | hy
        · exact le_refl _
        · exact absurd hlt (hnone y hy)
      · refine .inr ⟨List.mem_cons_of_mem _ mem, lt, fun y hy hlt => ?_⟩
        rcases List.mem_cons.mp hy with rfl | hy
        · exact le_of_lt (head _ mem)
        · exact top y hy hlt
    · simp only [search, if_neg hx]
      refine .inl ⟨trivial, fun y hy hlt => ?_⟩
      rcases List.mem_cons.mp hy with rfl | hy
      · exact hx hlt
      · exact hx (lt_trans (head y hy) hlt)

/-- **One bucket is enough.** Cut `S` by a monotone key `f`. The bucket of `d`, after the element
`p` the smaller buckets end with, is searched to the predecessor of `d` in all of `S`. -/
theorem search_isPrevious {f : α → β} (mono : Monotone f) {S xs : List α} {d p : α}
    (prev : IsPrevious (fun x => f x < f d) S p)
    (bucket : Lists (fun x => f x = f d) S xs) : IsPrevious (· < d) S (search d p xs) := by
  have within : ∀ x ∈ S, x < d → f x = f d → x ∈ xs := fun x hx _ hf => (bucket.2 x).mpr ⟨hx, hf⟩
  have below : ∀ {x y : α}, f x < f y → x < y := fun {x y} h => by
    by_contra hle
    exact absurd (mono (not_lt.mp hle)) (not_le.mpr h)
  rcases search_spec (d := d) bucket.1 with ⟨same, hnone⟩ | ⟨mem, lt, top⟩
  · rw [same]
    obtain ⟨hp, ⟨hlt, htop⟩ | ⟨hnone', htop⟩⟩ := prev
    · refine ⟨hp, .inl ⟨below hlt, fun x hx hxd => ?_⟩⟩
      rcases lt_or_eq_of_le (mono (le_of_lt hxd)) with h | h
      · exact htop x hx h
      · exact absurd hxd (hnone x (within x hx hxd h))
    · refine ⟨hp, .inr ⟨fun x hx hxd => ?_, htop⟩⟩
      rcases lt_or_eq_of_le (mono (le_of_lt hxd)) with h | h
      · exact hnone' x hx h
      · exact hnone x (within x hx hxd h) hxd
  · have hs := (bucket.2 _).mp mem
    refine ⟨hs.1, .inl ⟨lt, fun x hx hxd => ?_⟩⟩
    rcases lt_or_eq_of_le (mono (le_of_lt hxd)) with h | h
    · exact le_of_lt (below (h.trans_eq hs.2.symm))
    · exact top x (within x hx hxd h) hxd

/-! ## Links -/

/-- Each element of a list with the one behind it, the last with the first. -/
def links (L : List α) : List (α × α) := L.zip (L.rotate 1)

/-- `d` lies on the circle behind `p` and in front of `n`. -/
def Between (p d n : α) : Prop := p < d ∧ d < n ∨ n ≤ p ∧ (p < d ∨ d < n)

omit [LinearOrder α] in
theorem mem_links {L : List α} {p n : α} : (p, n) ∈ links L ↔
    ∃ (i : Nat) (_ : i < L.length) (_ : (i + 1) % L.length < L.length),
      L[i] = p ∧ L[(i + 1) % L.length] = n := by
  unfold links
  rw [List.mem_iff_getElem]
  simp only [List.length_zip, List.length_rotate, min_self, List.getElem_zip, List.getElem_rotate,
    Prod.mk.injEq]
  constructor
  · rintro ⟨i, hi, h⟩
    exact ⟨i, hi, Nat.mod_lt _ (by omega), h⟩
  · rintro ⟨i, hi, _, h⟩
    exact ⟨i, hi, h⟩

omit [LinearOrder α] in
theorem exists_link {L : List α} {p : α} (mem : p ∈ L) : ∃ n, (p, n) ∈ links L := by
  obtain ⟨i, hi, hp⟩ := List.mem_iff_getElem.mp mem
  exact ⟨_, mem_links.mpr ⟨i, hi, Nat.mod_lt _ (by omega), hp, rfl⟩⟩

/-- **What lies behind an element, and is none, lies in front of the next one.** -/
theorem between_of_link {L : List α} (sorted : L.Pairwise (· < ·)) {p n d : α}
    (link : (p, n) ∈ links L) (prev : IsPrevious (· < d) L p) (fresh : d ∉ L) : Between p d n := by
  obtain ⟨i, hi, _, hp, hn⟩ := mem_links.mp link
  have hmem : n ∈ L := hn ▸ List.getElem_mem _
  have hother : n ≠ d := fun same => fresh (same ▸ hmem)
  have front (notBelow : ¬ n < d) : d < n := lt_of_le_of_ne (not_lt.mp notBelow) hother.symm
  have order := List.pairwise_iff_getElem.mp sorted
  by_cases hlast : i + 1 < L.length
  · have hmod : (i + 1) % L.length = i + 1 := Nat.mod_eq_of_lt hlast
    simp only [hmod] at hn
    have hlt : p < n := hp ▸ hn ▸ order i (i + 1) hi hlast (Nat.lt_succ_self i)
    obtain ⟨-, ⟨hbelow, top⟩ | ⟨-, top⟩⟩ := prev
    · exact .inl ⟨hbelow, front fun below => absurd (top n hmem below) (not_le.mpr hlt)⟩
    · exact absurd (top n hmem) (not_le.mpr hlt)
  · have hmod : (i + 1) % L.length = 0 := by
      rw [show i + 1 = L.length by omega, Nat.mod_self]
    simp only [hmod] at hn
    have hle : n ≤ p := by
      rcases Nat.eq_zero_or_pos i with hzero | hpos
      · subst hzero
        exact le_of_eq (hn.symm.trans hp)
      · exact le_of_lt (hp ▸ hn ▸ order 0 i (by omega) hi hpos)
    obtain ⟨-, ⟨hbelow, -⟩ | ⟨hnone, -⟩⟩ := prev
    · exact .inr ⟨hle, .inl hbelow⟩
    · exact .inr ⟨hle, .inr (front (hnone n hmem))⟩

omit [LinearOrder α] in
/-- The links of a list, as a walk along it makes them. -/
theorem links_concat (x : α) (xs : List α) :
    links (x :: xs) = (x :: xs).zip xs ++ [((x :: xs).getLast (List.cons_ne_nil x xs), x)] := by
  have walk : ∀ (ys : List α) (y : α), (y :: ys).zip (ys ++ [x]) =
      (y :: ys).zip ys ++ [((y :: ys).getLast (List.cons_ne_nil y ys), x)] := by
    intro ys
    induction ys with
    | nil =>
      intro y
      rfl
    | cons z ys ih =>
      intro y
      rw [List.cons_append, List.zip_cons_cons, ih z, List.zip_cons_cons,
        List.getLast_cons (List.cons_ne_nil z ys), List.cons_append]
  unfold links
  rw [List.rotate_cons_succ, List.rotate_zero, walk]

end Cyclic
