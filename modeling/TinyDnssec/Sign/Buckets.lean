import TinyDnssec.Base.Cyclic

/-!
# The hash chain and its nibble buckets

The part of `tinydns-sign` that sorts the NSEC3 hashes of a zone, links each to the next and cuts
them into sixteen buckets by their leading nibble. Each bucket is meant to hold its hashes in
ascending order after the hash that precedes them on the circle, so that a server can find the
hash that covers any other by reading one bucket (`Cyclic.search_isPrevious`).

The loops are translated as they stand, Perl arrays included: an element that was never assigned
is undefined, `push` and `unshift` create it, and the first fill-up loop has no bound of its own.
It runs on fuel here, so that running forever can be told from stopping: `byNibble` answers
`none` at every fuel exactly when the Perl loop never stops.

What the loops compute is right only when some hash has leading nibble 0 and some other hash has
another (`byNibble_iff`). With no hash in bucket 0 the first bucket that has hashes gets no
predecessor in front (`Ascending.not_bucketed`); with all of them in bucket 0 the fill-up loop runs past
the end of the array and creates buckets without end (`Ascending.byNibble_never`).
-/

namespace TinyDnssec.Sign

open Octets Cyclic

/-- `ord($hash) >> 4` -/
def nib (hash : Bytes) : Nat := (hash.headD 0).toNat >>> 4

/-- A Perl array of array references; `none` is an undefined element. -/
abbrev Buckets := List (Option (List Bytes))

/-- `$byNibble[$nib]`, undefined past the end too. -/
def fetch (b : Buckets) (nib : Nat) : Option (List Bytes) := b[nib]?.join

/-- Assigning `$byNibble[$nib]` extends the array with undefined elements where it is too short. -/
def store (b : Buckets) (nib : Nat) (v : List Bytes) : Buckets :=
  (b ++ List.replicate (nib + 1 - b.length) none).set nib (some v)

/-- `@{$byNibble[$nib]}`: an undefined element is dereferenced to a fresh empty array. -/
def deref (b : Buckets) (nib : Nat) : List Bytes := (fetch b nib).getD []

/-- `push @{$byNibble[$nib]}, $hash` -/
def push (b : Buckets) (nib : Nat) (hash : Bytes) : Buckets := store b nib (deref b nib ++ [hash])

/-- `unshift @{$byNibble[$nib]}, $hash` -/
def unshift (b : Buckets) (nib : Nat) (hash : Bytes) : Buckets := store b nib (hash :: deref b nib)

/-- `n` assignments of one value to consecutive elements. -/
def fill (v : List Bytes) (b : Buckets) (nib : Nat) : Nat → Buckets
  | 0 => b
  | n + 1 => fill v (store b nib v) (nib + 1) n

/-- The variables of the loop over the sorted hashes. `filled` is `$prevNib + 1`; `next` lists the
`{next}` links made so far; `$first` and `$prev` are undefined together. -/
structure Chain where
  byNibble : Buckets := []
  filled : Nat := 0
  first : Option Bytes := none
  prev : Option Bytes := none
  next : List (Bytes × Bytes) := []

/-- `while ($prevNib < $nib)`, run when the bucket of the next hash is undefined. -/
def grow (s : Chain) (nib : Nat) : Chain :=
  if (fetch s.byNibble nib).isNone then
    { s with
      byNibble := fill s.prev.toList s.byNibble s.filled (nib + 1 - s.filled)
      filled := max s.filled (nib + 1) }
  else s

/-- The tail of the loop body: the first hash opens the chain, a later one is linked to. -/
def link (s : Chain) (hash : Bytes) : Chain :=
  match s.prev with
  | none => { s with first := some hash, prev := some hash }
  | some prev => { s with next := s.next ++ [(prev, hash)], prev := some hash }

/-- One turn of `foreach my $hash (sort keys %hashes)`. -/
def chainStep (s : Chain) (hash : Bytes) : Chain :=
  let s := grow s (nib hash)
  link { s with byNibble := push s.byNibble (nib hash) hash } hash

/-- `for ($nib = 1; $#{$byNibble[$nib]} < 0; $nib++) { unshift … }`, as far as `fuel` goes. -/
def fillEmpty (last : Bytes) : Nat → Nat → Buckets → Option Buckets
  | 0, _, _ => none
  | fuel + 1, nib, b =>
    if (deref b nib).isEmpty then fillEmpty last fuel (nib + 1) (unshift b nib last) else some b

/-- `sort keys %hashes` -/
def sortKeys (hashes : List Bytes) : List Bytes := hashes.mergeSort fun a b => decide (a ≤ b)

/-- The buckets and the `{next}` links of a zone's hashes; `none` while the loops still run. A zone
holds at least its apex, so the hashes are never empty. -/
def byNibble (fuel : Nat) (hashes : List Bytes) : Option (Buckets × List (Bytes × Bytes)) :=
  let s := (sortKeys hashes).foldl chainStep {}
  match s.first, s.prev with
  | some first, some last =>
    (fillEmpty last fuel 1 (unshift s.byNibble 0 last)).map fun b =>
      (fill [last] b b.length (16 - b.length), s.next ++ [(last, first)])
  | _, _ => none

/-! ## Arrays -/

theorem fetch_store (b : Buckets) (nib k : Nat) (v : List Bytes) :
    fetch (store b nib v) k = if k = nib then some v else fetch b k := by
  unfold fetch store
  rw [List.getElem?_set]
  by_cases hk : nib = k
  · subst hk
    rw [if_pos rfl, if_pos rfl, if_pos (by simp only [List.length_append, List.length_replicate]; omega)]
    rfl
  · rw [if_neg hk, if_neg (Ne.symm hk), List.getElem?_append]
    split
    · rfl
    · rename_i h
      rw [List.getElem?_eq_none (not_lt.mp h), List.getElem?_replicate]
      split <;> rfl

theorem length_store (b : Buckets) (nib : Nat) (v : List Bytes) :
    (store b nib v).length = max b.length (nib + 1) := by
  simp only [store, List.length_set, List.length_append, List.length_replicate]
  omega

theorem fetch_fill (v : List Bytes) (n : Nat) : ∀ (b : Buckets) (nib k : Nat),
    fetch (fill v b nib n) k = if nib ≤ k ∧ k < nib + n then some v else fetch b k := by
  induction n with
  | zero => intro b nib k; rw [fill, if_neg (by omega)]
  | succ n ih =>
    intro b nib k
    rw [fill, ih, fetch_store]
    by_cases hk : k = nib
    · rw [if_neg (by omega), if_pos hk, if_pos (by omega)]
    · rw [if_neg hk]
      by_cases hin : nib ≤ k ∧ k < nib + (n + 1)
      · rw [if_pos hin, if_pos (by omega)]
      · rw [if_neg hin, if_neg (by omega)]

theorem length_fill (v : List Bytes) (n : Nat) : ∀ (b : Buckets) (nib : Nat), nib ≤ b.length →
    (fill v b nib n).length = max b.length (nib + n) := by
  induction n with
  | zero => intro b nib h; rw [fill]; omega
  | succ n ih =>
    intro b nib h
    rw [fill, ih _ _ (by rw [length_store]; omega), length_store]
    omega

/-- Past the end of an array every element is undefined. -/
theorem fetch_of_length_le {b : Buckets} {k : Nat} (h : b.length ≤ k) : fetch b k = none := by
  rw [fetch, List.getElem?_eq_none h]; rfl

/-! ## The leading nibble -/

theorem nib_lt (hash : Bytes) : nib hash < 16 := by
  have := (hash.headD 0).toNat_lt
  rw [nib, Nat.shiftRight_eq_div_pow]
  omega

theorem nib_mono : Monotone nib := by
  intro s t hst
  have heads : (s.headD 0).toNat ≤ (t.headD 0).toNat := by
    cases s with
    | nil => exact Nat.zero_le _
    | cons a s =>
      cases t with
      | nil => exact absurd hst (not_le.mpr (List.nil_lt_cons a s))
      | cons b t => exact UInt8.le_iff_toNat_le.mp (head_le_of_le hst)
  simp only [nib, Nat.shiftRight_eq_div_pow]
  exact Nat.div_le_div_right heads

/-! ## The loop over the sorted hashes -/

/-- What a bucket holds when the loop has passed the ascending hashes `done`: its own hashes, after
the last hash of the smaller buckets where there is one. -/
def rawBucket (done : List Bytes) (k : Nat) : List Bytes :=
  (done.filter (fun h => decide (nib h < k))).getLast?.toList ++
    done.filter (fun h => decide (nib h = k))

/-- The loop invariant: `done` are the hashes passed so far. -/
structure ChainInv (done : List Bytes) (s : Chain) : Prop where
  first : s.first = done.head?
  prev : s.prev = done.getLast?
  filled : s.filled = (done.getLast?.map fun h => nib h + 1).getD 0
  length : s.byNibble.length = s.filled
  buckets : ∀ k, k < s.filled → fetch s.byNibble k = some (rawBucket done k)

theorem chainInv_nil : ChainInv [] {} :=
  ⟨rfl, rfl, rfl, rfl, fun k h => absurd h (Nat.not_lt_zero k)⟩

/-- A hash leaves the buckets below its own nibble as they were. -/
theorem rawBucket_snoc_lt {done : List Bytes} {hash : Bytes} {k : Nat} (h : k < nib hash) :
    rawBucket (done ++ [hash]) k = rawBucket done k := by
  simp only [rawBucket, List.filter_append, List.filter_cons, List.filter_nil]
  rw [if_neg (by simp only [decide_eq_true_eq]; omega), if_neg (by simp only [decide_eq_true_eq]; omega),
    List.append_nil, List.append_nil]

theorem rawBucket_snoc_self {done : List Bytes} {hash : Bytes} :
    rawBucket (done ++ [hash]) (nib hash) = rawBucket done (nib hash) ++ [hash] := by
  simp only [rawBucket, List.filter_append, List.filter_cons, List.filter_nil, lt_self_iff_false,
    decide_false, decide_true, Bool.false_eq_true, if_false, if_true, List.append_nil, List.append_assoc]

/-- Above every hash passed, a bucket holds the last of them alone. -/
theorem rawBucket_above {done : List Bytes} {k : Nat} (h : ∀ x ∈ done, nib x < k) :
    rawBucket done k = done.getLast?.toList := by
  have all : done.filter (fun h => decide (nib h < k)) = done :=
    List.filter_eq_self.mpr fun x hx => decide_eq_true (h x hx)
  have own : done.filter (fun h => decide (nib h = k)) = [] :=
    List.filter_eq_nil_iff.mpr fun x hx => by
      have := h x hx
      simp only [decide_eq_true_eq]; omega
  rw [rawBucket, all, own, List.append_nil]

/-- The last of an ascending list has the greatest nibble. -/
theorem nib_le_getLast {done : List Bytes} {last : Bytes} (sorted : done.Pairwise (· < ·))
    (hlast : done.getLast? = some last) : ∀ x ∈ done, nib x ≤ nib last := by
  obtain ⟨front, rfl⟩ := List.getLast?_eq_some_iff.mp hlast
  intro x hx
  rcases List.mem_append.mp hx with hx | hx
  · exact nib_mono (le_of_lt ((List.pairwise_append.mp sorted).2.2 x hx _ (List.mem_singleton_self _)))
  · rw [List.mem_singleton.mp hx]

/-- The buckets up to the one of the next hash exist after `grow`, whether they did before or are
created with the last hash so far in front. -/
theorem grow_spec {done : List Bytes} {s : Chain} {n : Nat} (inv : ChainInv done s)
    (sorted : done.Pairwise (· < ·)) (bound : s.filled ≤ n + 1) :
    (grow s n).filled = n + 1 ∧ (grow s n).byNibble.length = n + 1 ∧
      (∀ k, k < n + 1 → fetch (grow s n).byNibble k = some (rawBucket done k)) ∧
      (grow s n).prev = s.prev ∧ (grow s n).first = s.first := by
  unfold grow
  by_cases hdef : n < s.filled
  · have hsome : fetch s.byNibble n = some (rawBucket done n) := inv.buckets _ hdef
    rw [hsome, if_neg (by simp only [Option.isNone_some, Bool.false_eq_true, not_false_eq_true])]
    exact ⟨by omega, by rw [inv.length]; omega, fun k hk => inv.buckets k (by omega), rfl, rfl⟩
  · have hnone : fetch s.byNibble n = none := fetch_of_length_le (by rw [inv.length]; omega)
    rw [hnone, if_pos Option.isNone_none]
    refine ⟨by simp only; omega, ?_, fun k hk => ?_, rfl, rfl⟩
    · simp only [length_fill _ _ _ _ (le_of_eq inv.length.symm), inv.length]
      omega
    · simp only [fetch_fill]
      by_cases hk' : k < s.filled
      · rw [if_neg (by omega)]
        exact inv.buckets k hk'
      · rw [if_pos (by omega), rawBucket_above, inv.prev]
        intro x hx
        cases hlast : done.getLast? with
        | none => rw [List.getLast?_eq_none_iff.mp hlast] at hx; cases hx
        | some last =>
          have hle := nib_le_getLast sorted hlast x hx
          have hf := inv.filled
          rw [hlast, Option.map_some, Option.getD_some] at hf
          omega

/-- **One turn keeps the invariant.** -/
theorem ChainInv.step {done : List Bytes} {s : Chain} {hash : Bytes} (inv : ChainInv done s)
    (sorted : (done ++ [hash]).Pairwise (· < ·)) : ChainInv (done ++ [hash]) (chainStep s hash) := by
  have parts := List.pairwise_append.mp sorted
  have bound : s.filled ≤ nib hash + 1 := by
    rw [inv.filled]
    cases hlast : done.getLast? with
    | none => exact Nat.zero_le _
    | some last =>
      have hlt := parts.2.2 last (List.mem_of_getLast? hlast) hash (List.mem_singleton_self _)
      exact Nat.succ_le_succ (nib_mono (le_of_lt hlt))
  obtain ⟨hfilled, hlength, hbuckets, hprev, hfirst⟩ := grow_spec inv parts.1 bound
  have hlink : (chainStep s hash).byNibble = push (grow s (nib hash)).byNibble (nib hash) hash ∧
      (chainStep s hash).filled = nib hash + 1 ∧ (chainStep s hash).prev = some hash := by
    rw [← hfilled]
    simp only [chainStep, link]
    split <;> exact ⟨rfl, rfl, rfl⟩
  refine ⟨?_, ?_, ?_, ?_, ?_⟩
  · simp only [chainStep, link, hprev, inv.prev]
    cases done with
    | nil => rfl
    | cons x done =>
      rw [List.getLast?_cons]
      simp only [hfirst, inv.first, List.head?_cons, List.cons_append]
  · rw [hlink.2.2, List.getLast?_concat]
  · rw [hlink.2.1, List.getLast?_concat]; rfl
  · rw [hlink.1, hlink.2.1, push, length_store, hlength]; omega
  · intro k hk
    rw [hlink.2.1] at hk
    rw [hlink.1, push, fetch_store]
    split
    · rename_i h
      rw [h, rawBucket_snoc_self, deref, hbuckets _ (by omega)]; rfl
    · rw [hbuckets k hk, rawBucket_snoc_lt (by omega)]

/-- The loop over all the sorted hashes. -/
theorem chainInv_foldl {hashes : List Bytes} (sorted : hashes.Pairwise (· < ·)) :
    ChainInv hashes (hashes.foldl chainStep {}) := by
  induction hashes using List.reverseRecOn with
  | nil => exact chainInv_nil
  | append_singleton done hash ih =>
    rw [List.foldl_append, List.foldl_cons, List.foldl_nil]
    exact (ih (List.pairwise_append.mp sorted).1).step sorted

/-! ## The fill-up loops -/

/-- The unbounded loop stops at the first bucket that is not empty, having filled those before. -/
theorem fillEmpty_eq {last : Bytes} {stop : Nat} : ∀ (fuel nib : Nat) (b : Buckets), nib ≤ stop →
    (∀ k, nib ≤ k → k < stop → deref b k = []) → deref b stop ≠ [] →
    fillEmpty last fuel nib b =
      if stop - nib < fuel then some (fill [last] b nib (stop - nib)) else none
  | 0, nib, b, _, _, _ => by rw [fillEmpty, if_neg (Nat.not_lt_zero _)]
  | fuel + 1, nib, b, hle, hempty, hstop => by
    rw [fillEmpty]
    by_cases hnib : nib = stop
    · subst hnib
      rw [if_neg (by simpa only [List.isEmpty_iff] using hstop), Nat.sub_self,
        if_pos (Nat.succ_pos _), fill]
    · have hnil : deref b nib = [] := hempty nib (le_refl _) (by omega)
      have others : ∀ k, k ≠ nib → deref (unshift b nib last) k = deref b k := fun k hk => by
        rw [deref, unshift, fetch_store, if_neg hk, deref]
      have rest := @fillEmpty_eq last stop fuel (nib + 1) (unshift b nib last)
        (Nat.lt_of_le_of_ne hle hnib)
        (fun k h1 h2 => by rw [others k (by omega)]; exact hempty k (by omega) h2)
        (by rw [others stop (Ne.symm hnib)]; exact hstop)
      rw [if_pos (List.isEmpty_iff.mpr hnil), rest]
      have hsub : stop - nib = (stop - (nib + 1)) + 1 := by omega
      rw [hsub, fill, unshift, hnil]
      by_cases hfuel : stop - (nib + 1) < fuel
      · rw [if_pos hfuel, if_pos (by omega)]
      · rw [if_neg hfuel, if_neg (by omega)]

/-- Where every further bucket is empty or undefined, the loop makes them up without end. -/
theorem fillEmpty_never {last : Bytes} : ∀ (fuel nib : Nat) (b : Buckets),
    (∀ k, nib ≤ k → deref b k = []) → fillEmpty last fuel nib b = none
  | 0, _, _, _ => rfl
  | fuel + 1, nib, b, h => by
    rw [fillEmpty, if_pos (List.isEmpty_iff.mpr (h nib (le_refl _)))]
    refine fillEmpty_never fuel (nib + 1) _ fun k hk => ?_
    rw [deref, unshift, fetch_store, if_neg (by omega)]
    exact h k (by omega)

/-- A bucket is empty when no hash passed has a nibble up to its own. -/
theorem rawBucket_eq_nil {done : List Bytes} {k : Nat} :
    rawBucket done k = [] ↔ ∀ x ∈ done, k < nib x := by
  simp only [rawBucket, List.append_eq_nil_iff, Option.toList_eq_nil_iff, List.getLast?_eq_none_iff,
    List.filter_eq_nil_iff, decide_eq_true_eq, not_lt]
  constructor
  · rintro ⟨hlt, heq⟩ x hx
    exact lt_of_le_of_ne (hlt x hx) (Ne.symm (heq x hx))
  · exact fun h => ⟨fun x hx => le_of_lt (h x hx), fun x hx => ne_of_gt (h x hx)⟩

theorem sortKeys_perm (hashes : List Bytes) : (sortKeys hashes).Perm hashes :=
  List.mergeSort_perm ..

/-- The keys of a hash are distinct, so sorting them gives a strictly ascending list. -/
theorem sortKeys_sorted {hashes : List Bytes} (nodup : hashes.Nodup) :
    (sortKeys hashes).Pairwise (· < ·) := by
  have trans : ∀ a b c : Bytes, decide (a ≤ b) = true → decide (b ≤ c) = true →
      decide (a ≤ c) = true := fun a b c hab hbc =>
    decide_eq_true (le_trans (of_decide_eq_true hab) (of_decide_eq_true hbc))
  have total : ∀ a b : Bytes, (decide (a ≤ b) || decide (b ≤ a)) = true := fun a b => by
    simpa only [Bool.or_eq_true, decide_eq_true_eq] using le_total a b
  have sorted := List.pairwise_mergeSort trans total hashes
  refine (sorted.and ((sortKeys_perm hashes).symm.nodup nodup)).imp fun {a b} h => ?_
  exact lt_of_le_of_ne (of_decide_eq_true h.1) h.2

/-- The order in which the keys come makes no difference. -/
theorem sortKeys_congr {hashes hashes' : List Bytes} (nodup : hashes.Nodup) (perm : hashes'.Perm hashes) :
    sortKeys hashes' = sortKeys hashes := by
  have hperm := (sortKeys_perm hashes').trans (perm.trans (sortKeys_perm hashes).symm)
  exact hperm.eq_of_pairwise (fun _ _ _ _ h h' => absurd h (lt_asymm h'))
    (sortKeys_sorted (perm.nodup_iff.mpr nodup)) (sortKeys_sorted nodup)

/-- The array just before the fill-up loops, for the ascending hashes of a zone. -/
theorem unshifted_spec {l : List Bytes} {s : Chain} {last : Bytes} (inv : ChainInv l s)
    (hlast : l.getLast? = some last) :
    (unshift s.byNibble 0 last).length = nib last + 1 ∧ ∀ k, fetch (unshift s.byNibble 0 last) k =
      if k = 0 then some (last :: rawBucket l 0)
      else if k < nib last + 1 then some (rawBucket l k) else none := by
  have hfilled : s.filled = nib last + 1 := by
    rw [inv.filled, hlast]; rfl
  refine ⟨by rw [unshift, length_store, inv.length, hfilled]; omega, fun k => ?_⟩
  rw [unshift, fetch_store, deref, inv.buckets 0 (by omega)]
  split
  · rfl
  · split
    · exact inv.buckets k (by omega)
    · exact fetch_of_length_le (by rw [inv.length]; omega)

/-- What the buckets are for: each lists its hashes after the hash that precedes them. -/
def Bucketed (hashes : List Bytes) (b : Buckets) : Prop :=
  ∀ k, k < 16 → ∃ p own, IsPrevious (fun h => nib h < k) hashes p ∧
    Lists (fun h => nib h = k) hashes own ∧ fetch b k = some (p :: own)

/-- The zone's ascending hashes, as the loops see them. -/
structure Ascending (hashes : List Bytes) (first last : Bytes) : Prop where
  sorted : (sortKeys hashes).Pairwise (· < ·)
  head : (sortKeys hashes).head? = some first
  last : (sortKeys hashes).getLast? = some last

theorem ascending_of_nodup {hashes : List Bytes} (ne : hashes ≠ []) (nodup : hashes.Nodup) :
    ∃ first last, Ascending hashes first last := by
  have hne : sortKeys hashes ≠ [] := fun h => ne (by
    have := sortKeys_perm hashes
    rw [h] at this
    exact this.nil_eq.symm)
  exact ⟨_, _, sortKeys_sorted nodup, List.head?_eq_some_head hne, List.getLast?_eq_some_getLast hne⟩

theorem mem_sortKeys {hashes : List Bytes} {h : Bytes} : h ∈ sortKeys hashes ↔ h ∈ hashes :=
  (sortKeys_perm hashes).mem_iff

section Finished

variable {hashes : List Bytes} {first last : Bytes} (asc : Ascending hashes first last)
include asc

theorem Ascending.first_mem : first ∈ sortKeys hashes := List.mem_of_head? asc.head

theorem Ascending.last_mem : last ∈ sortKeys hashes := List.mem_of_getLast? asc.last

theorem Ascending.nib_first_le : ∀ x ∈ sortKeys hashes, nib first ≤ nib x := by
  intro x hx
  obtain ⟨rest, hl⟩ := List.head?_eq_some_iff.mp asc.head
  have sorted := asc.sorted
  rw [hl] at hx sorted
  rcases List.mem_cons.mp hx with rfl | hx
  · exact le_refl _
  · exact nib_mono (le_of_lt ((List.pairwise_cons.mp sorted).1 x hx))

theorem Ascending.nib_le_last : ∀ x ∈ sortKeys hashes, nib x ≤ nib last :=
  nib_le_getLast asc.sorted asc.last

theorem Ascending.le_last : ∀ x ∈ sortKeys hashes, x ≤ last := by
  intro x hx
  obtain ⟨front, hl⟩ := List.getLast?_eq_some_iff.mp asc.last
  have sorted := asc.sorted
  rw [hl] at hx sorted
  rcases List.mem_append.mp hx with hx | hx
  · exact le_of_lt ((List.pairwise_append.mp sorted).2.2 x hx _ (List.mem_singleton_self _))
  · exact le_of_eq (List.mem_singleton.mp hx)

/-- The first bucket that the unbounded loop leaves alone: the first that has hashes, but never
bucket 0. -/
theorem Ascending.fillEmpty_stops (spread : 0 < nib last) (fuel : Nat) :
    fillEmpty last fuel 1 (unshift ((sortKeys hashes).foldl chainStep {}).byNibble 0 last) =
      if max 1 (nib first) - 1 < fuel then
        some (fill [last] (unshift ((sortKeys hashes).foldl chainStep {}).byNibble 0 last) 1
          (max 1 (nib first) - 1))
      else none := by
  have spec := (unshifted_spec (chainInv_foldl asc.sorted) asc.last).2
  have hle := asc.nib_first_le last asc.last_mem
  apply fillEmpty_eq _ _ _ (le_max_left ..)
  · intro k h1 h2
    rw [deref, spec, if_neg (by omega), if_pos (by omega), Option.getD_some]
    exact rawBucket_eq_nil.mpr fun x hx => by have := asc.nib_first_le x hx; omega
  · rw [deref, spec, if_neg (by omega), if_pos (by omega), Option.getD_some]
    intro hnil
    have := rawBucket_eq_nil.mp hnil first asc.first_mem
    omega

/-- The result of the three loops, bucket by bucket. -/
theorem Ascending.byNibble_eq (spread : 0 < nib last) {fuel : Nat} {b : Buckets}
    {next : List (Bytes × Bytes)} (run : byNibble fuel hashes = some (b, next)) {k : Nat}
    (bound : k < 16) : fetch b k = some
      (if k = 0 then last :: rawBucket (sortKeys hashes) 0
      else if k < nib first then [last]
      else if k ≤ nib last then rawBucket (sortKeys hashes) k else [last]) := by
  have inv := chainInv_foldl asc.sorted
  have spec := unshifted_spec inv asc.last
  have hle := asc.nib_first_le last asc.last_mem
  have hlt := nib_lt last
  rw [byNibble, inv.first, inv.prev, asc.head, asc.last] at run
  simp only [asc.fillEmpty_stops spread fuel] at run
  split at run
  · simp only [Option.map_some, Option.some.injEq, Prod.mk.injEq] at run
    rw [← run.1, fetch_fill, length_fill _ _ _ _ (by rw [spec.1]; omega), spec.1, fetch_fill,
      spec.2 k]
    by_cases h0 : k = 0
    · subst h0
      rw [if_neg (by omega), if_neg (by omega), if_pos rfl, if_pos rfl]
    · rw [if_neg h0, if_neg h0]
      by_cases h1 : k < nib first
      · rw [if_neg (by omega), if_pos (by omega), if_pos h1]
      · by_cases h2 : k ≤ nib last
        · rw [if_neg (by omega), if_neg (by omega), if_pos (by omega), if_neg h1, if_pos h2]
        · rw [if_pos (by omega), if_neg h1, if_neg h2]
  · cases run

/-- A bucket the loop over the hashes filled right is listed after its predecessor. -/
theorem Ascending.lists (k : Nat) :
    Lists (fun h => nib h = k) hashes ((sortKeys hashes).filter (fun h => decide (nib h = k))) :=
  ⟨asc.sorted.filter _, fun x => by rw [List.mem_filter, decide_eq_true_eq, mem_sortKeys]⟩

theorem Ascending.isPrevious_last {k : Nat} (none_below : k ≤ nib first) :
    IsPrevious (fun h => nib h < k) hashes last :=
  ⟨mem_sortKeys.mp asc.last_mem, .inr ⟨fun x hx => not_lt.mpr
      (none_below.trans (asc.nib_first_le x (mem_sortKeys.mpr hx))),
    fun x hx => asc.le_last x (mem_sortKeys.mpr hx)⟩⟩

/-- Above the first bucket that has hashes, the loop itself puts the predecessor in front. -/
theorem Ascending.rawBucket_eq {k : Nat} (above : nib first < k) :
    ∃ p, IsPrevious (fun h => nib h < k) hashes p ∧
      rawBucket (sortKeys hashes) k =
        p :: (sortKeys hashes).filter (fun h => decide (nib h = k)) := by
  have ne : (sortKeys hashes).filter (fun h => decide (nib h < k)) ≠ [] := fun h =>
    absurd (List.filter_eq_nil_iff.mp h first asc.first_mem) (by simpa using above)
  refine ⟨_, (isPrevious_getLast_filter asc.sorted ne).congr fun x => mem_sortKeys, ?_⟩
  rw [rawBucket, List.getLast?_eq_some_getLast ne]
  rfl

/-- Hashes in bucket 0 and in another make every bucket right. -/
theorem Ascending.bucketed (zero : nib first = 0) (spread : 0 < nib last) {fuel : Nat}
    {b : Buckets} {next : List (Bytes × Bytes)} (run : byNibble fuel hashes = some (b, next)) :
    Bucketed hashes b := by
  intro k hk
  have hbucket := asc.byNibble_eq spread run hk
  by_cases h0 : k = 0
  · subst h0
    rw [if_pos rfl] at hbucket
    refine ⟨last, _, asc.isPrevious_last (Nat.zero_le _), asc.lists 0, ?_⟩
    rw [hbucket, rawBucket]
    have hlead : (sortKeys hashes).filter (fun h => decide (nib h < 0)) = [] :=
      List.filter_eq_nil_iff.mpr fun x _ => by simp
    rw [hlead]; rfl
  · rw [if_neg h0, if_neg (by omega)] at hbucket
    obtain ⟨p, hp, heq⟩ := asc.rawBucket_eq (k := k) (by omega)
    by_cases hle : k ≤ nib last
    · rw [if_pos hle, heq] at hbucket
      exact ⟨p, _, hp, asc.lists k, hbucket⟩
    · have hown : (sortKeys hashes).filter (fun h => decide (nib h = k)) = [] :=
        List.filter_eq_nil_iff.mpr fun x hx => by
          have := asc.nib_le_last x hx
          simp only [decide_eq_true_eq]; omega
      have hlast : IsPrevious (fun h => nib h < k) hashes last :=
        ⟨mem_sortKeys.mp asc.last_mem, .inl ⟨by omega,
          fun x hx _ => asc.le_last x (mem_sortKeys.mpr hx)⟩⟩
      rw [if_neg hle] at hbucket
      exact ⟨last, [], hlast, by rw [← hown]; exact asc.lists k, hbucket⟩

/-- With bucket 0 empty, the first bucket that has hashes has no predecessor in front. -/
theorem Ascending.not_bucketed (nonzero : nib first ≠ 0) {fuel : Nat} {b : Buckets}
    {next : List (Bytes × Bytes)} (run : byNibble fuel hashes = some (b, next)) :
    ¬ Bucketed hashes b := by
  intro h
  have hle := asc.nib_first_le last asc.last_mem
  obtain ⟨p, own, _, hown, hfetch⟩ := h (nib first) (nib_lt first)
  have hbucket := asc.byNibble_eq (by omega) run (nib_lt first)
  have hlead : (sortKeys hashes).filter (fun h => decide (nib h < nib first)) = [] :=
    List.filter_eq_nil_iff.mpr fun x hx => by
      have := asc.nib_first_le x hx
      simp only [decide_eq_true_eq]; omega
  rw [if_neg nonzero, if_neg (lt_irrefl _), if_pos hle, rawBucket, hlead, hfetch,
    hown.unique (asc.lists _)] at hbucket
  exact absurd (congrArg List.length (Option.some.inj hbucket)) (by
    simp only [List.length_cons, List.length_append, List.getLast?_nil, Option.toList_none,
      List.length_nil]
    omega)

/-- With every hash in bucket 0 the loops never stop. -/
theorem Ascending.byNibble_never (flat : nib last = 0) (fuel : Nat) :
    byNibble fuel hashes = none := by
  have inv := chainInv_foldl asc.sorted
  have spec := unshifted_spec inv asc.last
  rw [byNibble, inv.first, inv.prev, asc.head, asc.last]
  simp only [Option.map_eq_none_iff]
  refine fillEmpty_never fuel 1 _ fun k hk => ?_
  rw [deref, spec.2, if_neg (by omega), if_neg (by omega), Option.getD_none]

/-- Spread hashes let the loops stop. -/
theorem Ascending.byNibble_stops (spread : 0 < nib last) :
    ∃ fuel b next, byNibble fuel hashes = some (b, next) := by
  have inv := chainInv_foldl asc.sorted
  have hlt := nib_lt first
  have stops : (byNibble 17 hashes).isSome = true := by
    rw [byNibble, inv.first, inv.prev, asc.head, asc.last]
    simp only [asc.fillEmpty_stops spread 17]
    rw [if_pos (by omega)]
    rfl
  obtain ⟨⟨b, next⟩, run⟩ := Option.isSome_iff_exists.mp stops
  exact ⟨17, b, next, run⟩

end Finished

/-! ## The links -/

theorem grow_links (s : Chain) (n : Nat) : (grow s n).prev = s.prev ∧ (grow s n).next = s.next := by
  unfold grow
  split <;> exact ⟨rfl, rfl⟩

theorem zip_tail_concat (done : List Bytes) (hash : Bytes) :
    (done ++ [hash]).zip (done ++ [hash]).tail =
      done.zip done.tail ++ (done.getLast?.map fun prev => (prev, hash)).toList := by
  induction done with
  | nil => rfl
  | cons x done ih =>
    cases done with
    | nil => rfl
    | cons y done =>
      simp only [List.cons_append, List.tail_cons] at ih ⊢
      rw [List.zip_cons_cons, ih, List.zip_cons_cons, List.cons_append, List.getLast?_cons_cons]

/-- A turn links the last hash so far to the next one. -/
theorem chainStep_links (s : Chain) (hash : Bytes) : (chainStep s hash).prev = some hash ∧
    (chainStep s hash).next = s.next ++ (s.prev.map fun prev => (prev, hash)).toList := by
  obtain ⟨hprev, hnext⟩ := grow_links s (nib hash)
  unfold chainStep link
  simp only [hprev, hnext]
  cases s.prev with
  | none => exact ⟨rfl, (List.append_nil _).symm⟩
  | some prev => exact ⟨rfl, rfl⟩

/-- The loop links each hash to the next. -/
theorem foldl_links (hashes : List Bytes) : (hashes.foldl chainStep {}).prev = hashes.getLast? ∧
    (hashes.foldl chainStep {}).next = hashes.zip hashes.tail := by
  induction hashes using List.reverseRecOn with
  | nil => exact ⟨rfl, rfl⟩
  | append_singleton done hash ih =>
    obtain ⟨hprev, hnext⟩ := chainStep_links (done.foldl chainStep {}) hash
    rw [List.foldl_append, List.foldl_cons, List.foldl_nil, List.getLast?_concat, zip_tail_concat]
    rw [ih.1, ih.2] at hnext
    exact ⟨hprev, hnext⟩

/-- **The links go around**: from each hash to the next greater one, and from the greatest to the
least. -/
theorem Ascending.byNibble_links {hashes : List Bytes} {first last : Bytes}
    (asc : Ascending hashes first last) {fuel : Nat} {b : Buckets} {next : List (Bytes × Bytes)}
    (run : byNibble fuel hashes = some (b, next)) : next = links (sortKeys hashes) := by
  have inv := chainInv_foldl asc.sorted
  rw [byNibble, inv.first, inv.prev, asc.head, asc.last] at run
  obtain ⟨b', -, hpair⟩ := Option.map_eq_some_iff.mp run
  have hnext := congrArg Prod.snd hpair
  obtain ⟨rest, hl⟩ := List.head?_eq_some_iff.mp asc.head
  have hlast := asc.last
  simp only [(foldl_links _).2] at hnext
  rw [← hnext]
  rw [hl] at hlast ⊢
  rw [links_concat, List.tail_cons, Option.some_inj.mp ((List.getLast?_eq_some_getLast
    (List.cons_ne_nil first rest)).symm.trans hlast)]

/-- **When the bucket-building code of `tinydns-sign` is right.** For the distinct hashes of a zone,
the loops stop and leave in every bucket its hashes after the hash that precedes them exactly when
some hash has leading nibble 0 and some hash has another. -/
theorem byNibble_iff (hashes : List Bytes) (ne : hashes ≠ []) (nodup : hashes.Nodup) :
    (∃ fuel b next, byNibble fuel hashes = some (b, next) ∧ Bucketed hashes b) ↔
      (∃ h ∈ hashes, nib h = 0) ∧ ∃ h ∈ hashes, nib h ≠ 0 := by
  obtain ⟨first, last, asc⟩ := ascending_of_nodup ne nodup
  constructor
  · rintro ⟨fuel, b, next, run, right⟩
    refine ⟨⟨first, mem_sortKeys.mp asc.first_mem, ?_⟩, last, mem_sortKeys.mp asc.last_mem, ?_⟩
    · by_contra hne
      exact asc.not_bucketed hne run right
    · intro hflat
      rw [asc.byNibble_never hflat] at run
      cases run
  · rintro ⟨⟨low, hlow, hzero⟩, high, hhigh, hnonzero⟩
    have hfirst := asc.nib_first_le low (mem_sortKeys.mpr hlow)
    have hlast := asc.nib_le_last high (mem_sortKeys.mpr hhigh)
    obtain ⟨fuel, b, next, run⟩ := asc.byNibble_stops (by omega)
    exact ⟨fuel, b, next, run, asc.bucketed (by omega) (by omega) run⟩

/-- Two hashes in different buckets, one of them bucket 0. -/
theorem byNibble_two : ∃ fuel b next,
    byNibble fuel [List.replicate 20 0, List.replicate 20 16] = some (b, next) ∧
      Bucketed [List.replicate 20 0, List.replicate 20 16] b :=
  (byNibble_iff [List.replicate 20 0, List.replicate 20 16] (by decide) (by decide)).mpr
    ⟨⟨List.replicate 20 0, by decide, by decide⟩, List.replicate 20 16, by decide, by decide⟩

/-- A zone of one hash: with leading nibble 0 the loops never stop, and with leading nibble 1 they
stop but bucket 1 lacks the predecessor, which on a circle of one is the hash itself. -/
theorem byNibble_single :
    (¬ ∃ fuel b next, byNibble fuel [List.replicate 20 0] = some (b, next) ∧
      Bucketed [List.replicate 20 0] b) ∧
    ¬ ∃ fuel b next, byNibble fuel [List.replicate 20 16] = some (b, next) ∧
      Bucketed [List.replicate 20 16] b := by
  have single : ∀ h : Bytes, Ascending [h] h h := fun h =>
    ⟨by rw [sortKeys, List.mergeSort_singleton]; exact List.pairwise_singleton _ _,
      by rw [sortKeys, List.mergeSort_singleton]; rfl, by rw [sortKeys, List.mergeSort_singleton]; rfl⟩
  constructor
  · rintro ⟨fuel, b, next, run, -⟩
    rw [(single _).byNibble_never (by decide)] at run
    cases run
  · rintro ⟨fuel, b, next, run, right⟩
    exact (single _).not_bucketed (by decide) run right

end TinyDnssec.Sign
