import TinyDnssec.Base.XorList
import TinyDnssec.Cache

/-!
# The layout of the cache

What the comment at the top of `cache.c` says of the buffer, as a relation between the buffer and
the entries it keeps. `Stored` is about the octets alone: entries stand at places that do not
overlap, and every bucket's list leads from its head to the entries of the bucket, from the newest
to the oldest. Two operations keep it: the oldest entry is taken off, a new one is put behind the
head of its bucket.
-/

namespace TinyDnssec.Dnscache

open Octets XorList

/-- An entry of the cache. -/
structure Entry where
  key : Bytes
  data : Bytes
  expire : Nat
  shortKey : key.length ≤ maxKeyLen
  shortData : data.length ≤ maxDataLen
  label : expire < 18446744073709551616

def Entry.length (e : Entry) : Nat := e.key.length + e.data.length + 20

/-- The octets of an entry behind its link. -/
def Entry.body (e : Entry) : Bytes :=
  le32 e.key.length ++ (le32 e.data.length ++ (be64 e.expire ++ (e.key ++ e.data)))

theorem Entry.body_length (e : Entry) : e.body.length + 4 = e.length := by
  unfold Entry.body Entry.length
  simp only [List.length_append, le32_length, be64_length]
  omega

theorem Entry.length_le (e : Entry) : 20 ≤ e.length ∧ e.length ≤ 1001020 := by
  have hkey := e.shortKey
  have hdata := e.shortData
  unfold maxKeyLen at hkey
  unfold maxDataLen at hdata
  unfold Entry.length
  omega

/-- Entries that follow one another, with the positions they stand at. -/
def places : Nat → List Entry → List (Nat × Entry)
  | _, [] => []
  | pos, e :: es => (pos, e) :: places (pos + e.length) es

def total (es : List Entry) : Nat := (es.map Entry.length).sum

theorem places_append (pos : Nat) (es : List Entry) (e : Entry) :
    places pos (es ++ [e]) = places pos es ++ [(pos + total es, e)] := by
  induction es generalizing pos with
  | nil => rfl
  | cons e' es ih =>
    show (pos, e') :: places (pos + e'.length) (es ++ [e]) = _
    rw [ih]
    show _ = (pos, e') :: (places (pos + e'.length) es ++ [(pos + (e'.length + total es), e)])
    rw [Nat.add_assoc]

theorem total_append (es : List Entry) (e : Entry) : total (es ++ [e]) = total es + e.length := by
  unfold total
  rw [List.map_append, List.sum_append]
  rfl

/-- An entry stands inside the region of its list. -/
theorem mem_places {pos : Nat} {es : List Entry} {i : Nat × Entry} (h : i ∈ places pos es) :
    pos ≤ i.1 ∧ i.1 + i.2.length ≤ pos + total es ∧ i.2 ∈ es := by
  induction es generalizing pos with
  | nil => cases h
  | cons e es ih =>
    have htotal : total (e :: es) = e.length + total es := List.sum_cons
    rcases List.mem_cons.mp h with rfl | h
    · refine ⟨Nat.le_refl _, ?_, List.mem_cons_self⟩
      show pos + e.length ≤ pos + total (e :: es)
      omega
    · obtain ⟨hlow, hhigh, hmem⟩ := ih h
      exact ⟨by omega, by omega, List.mem_cons_of_mem _ hmem⟩

/-- Neither of two entries reaches into the other. -/
def Apart (i j : Nat × Entry) : Prop := i.1 + i.2.length ≤ j.1 ∨ j.1 + j.2.length ≤ i.1

instance : Std.Symm Apart := ⟨fun _ _ => Or.symm⟩

/-! ## Links -/

/-- The number stored at a position. -/
def link (x : Bytes) (pos : Nat) : Nat := unle ((x.drop pos).take 4)

theorem link_of_holds {x : Bytes} {pos u : Nat} (h : Holds (memory x) pos (le32 u))
    (small : u < 4294967296) : link x pos = u := by
  obtain ⟨rest, hrest⟩ := holds_memory.mp h
  unfold link
  rw [← hrest, List.take_left' (le32_length u), unle_le32 small]

theorem link_lt (x : Bytes) (pos : Nat) : link x pos < 4294967296 := by
  unfold link unle
  have hlen : ((x.drop pos).take 4).reverse.length ≤ 4 := by
    rw [List.length_reverse, List.length_take]
    exact Nat.min_le_left _ _
  exact Nat.lt_of_lt_of_le (unbe_lt _) (Nat.pow_le_pow_right (show 256 > 0 by decide) hlen)

section

variable {x s : Bytes} {pos q : Nat}

/-- A field written elsewhere leaves what stands at a place. -/
theorem holds_patch_other {t : Bytes} (fits : pos + s.length ≤ x.length)
    (out : q + t.length ≤ pos ∨ pos + s.length ≤ q) (h : Holds (memory x) q t) :
    Holds (memory (patch x pos s)) q t := by
  intro i b hb
  obtain ⟨hlt, _⟩ := List.getElem?_eq_some_iff.mp hb
  show (patch x pos s)[q + i]? = some b
  rw [getElem?_patch fits (by omega)]
  exact h i b hb

theorem link_patch_other (fits : pos + s.length ≤ x.length)
    (out : q + 4 ≤ pos ∨ pos + s.length ≤ q) : link (patch x pos s) q = link x q := by
  unfold link
  congr 1
  apply List.ext_getElem?
  intro i
  rw [List.getElem?_take, List.getElem?_take, List.getElem?_drop, List.getElem?_drop]
  split
  · exact getElem?_patch fits (by omega)
  · rfl

theorem link_patch_self {u : Nat} (fits : pos + 4 ≤ x.length) (small : u < 4294967296) :
    link (patch x pos (le32 u)) pos = u :=
  link_of_holds (holds_patch (by rw [le32_length]; exact fits)) small

end

/-! ## The buffer -/

/-- A position of a head link: the table takes the first `hsize` octets. -/
def IsHead (hsize b : Nat) : Prop := b < hsize ∧ b % 4 = 0

/-- **Every key has a head link in the table.** -/
theorem hash_isHead (siphash : Bytes → UInt64) {hsize : Nat} (power : ∃ k, hsize = 2 ^ (k + 2))
    (key : Bytes) : IsHead hsize (hash siphash hsize key) := by
  obtain ⟨k, hk⟩ := power
  have hpos : 0 < 2 ^ k := Nat.two_pow_pos k
  have hfour : hsize = 2 ^ k * 4 := by rw [hk, Nat.pow_add]
  have hmask : sub32 hsize 4 = hsize - 4 := if_pos (by omega)
  unfold hash
  rw [hmask]
  refine ⟨Nat.lt_of_le_of_lt Nat.and_le_right (by omega), ?_⟩
  rw [show 4 = 2 ^ 2 from rfl, Nat.and_mod_two_pow, show (hsize - 2 ^ 2) % 2 ^ 2 = 0 by omega,
    Nat.and_zero]

/-- The entries of a bucket, the newest first, when the entries are given from the oldest on. -/
def bucket (siphash : Bytes → UInt64) (hsize : Nat) (placed : List (Nat × Entry)) (b : Nat) :
    List (Nat × Entry) :=
  (placed.filter fun i => hash siphash hsize i.2.key = b).reverse

/-- **The octets of the cache**, for the entries at their places, from the oldest to the newest. -/
structure Stored (siphash : Bytes → UInt64) (hsize : Nat) (x : Bytes)
    (placed : List (Nat × Entry)) : Prop where
  power : ∃ k, hsize = 2 ^ (k + 2)
  room : hsize ≤ x.length
  small : x.length < 4294967296
  apart : placed.Pairwise Apart
  inside : ∀ i ∈ placed, hsize ≤ i.1 ∧ i.1 + i.2.length ≤ x.length
  bodies : ∀ i ∈ placed, Holds (memory x) (i.1 + 4) i.2.body
  lists : ∀ b, IsHead hsize b →
    Chain (link x) 0 b ((bucket siphash hsize placed b).map Prod.fst)

/-- A position with a link: a head or an entry. -/
def Spot (hsize : Nat) (placed : List (Nat × Entry)) (q : Nat) : Prop :=
  IsHead hsize q ∨ ∃ e, (q, e) ∈ placed

section

variable {siphash : Bytes → UInt64} {hsize : Nat} {x : Bytes} {placed : List (Nat × Entry)}

theorem mem_bucket {b : Nat} {i : Nat × Entry} :
    i ∈ bucket siphash hsize placed b ↔ i ∈ placed ∧ hash siphash hsize i.2.key = b := by
  unfold bucket
  rw [List.mem_reverse, List.mem_filter, decide_eq_true_eq]

theorem bucket_spot {b q : Nat} (head : IsHead hsize b)
    (h : q ∈ b :: (bucket siphash hsize placed b).map Prod.fst) : Spot hsize placed q := by
  rcases List.mem_cons.mp h with rfl | h
  · exact .inl head
  · obtain ⟨i, hi, rfl⟩ := List.mem_map.mp h
    exact .inr ⟨i.2, (mem_bucket.mp hi).1⟩

theorem Stored.four (h : Stored siphash hsize x placed) : hsize % 4 = 0 ∧ 4 ≤ hsize := by
  obtain ⟨k, hk⟩ := h.power
  have hpos : 0 < 2 ^ k := Nat.two_pow_pos k
  have hfour : hsize = 2 ^ k * 4 := by rw [hk, Nat.pow_add]
  omega

/-- One entry stands at a place. -/
theorem Stored.same (h : Stored siphash hsize x placed) {i j : Nat × Entry} (hi : i ∈ placed)
    (hj : j ∈ placed) (at_same : i.1 = j.1) : i = j := by
  by_contra hne
  have hi' := i.2.length_le
  have hj' := j.2.length_le
  have hapart := h.apart.forall hi hj hne
  unfold Apart at hapart
  omega

/-- Links do not overlap. -/
theorem Stored.spot_apart (h : Stored siphash hsize x placed) {q q' : Nat}
    (hq : Spot hsize placed q) (hq' : Spot hsize placed q') (ne : q ≠ q') :
    q + 4 ≤ q' ∨ q' + 4 ≤ q := by
  have hfour := h.four
  rcases hq with ⟨hlt, hmod⟩ | ⟨e, he⟩ <;> rcases hq' with ⟨hlt', hmod'⟩ | ⟨e', he'⟩
  · omega
  · have hinside := (h.inside _ he').1
    omega
  · have hinside := (h.inside _ he).1
    omega
  · have hapart : q + e.length ≤ q' ∨ q' + e'.length ≤ q :=
      h.apart.forall he he' fun heq => ne (congrArg Prod.fst heq)
    have hlen := e.length_le
    have hlen' := e'.length_le
    omega

/-- No link reaches into the rest of an entry. -/
theorem Stored.spot_body (h : Stored siphash hsize x placed) {q : Nat}
    (hq : Spot hsize placed q) {i : Nat × Entry} (hi : i ∈ placed) :
    i.1 + 4 + i.2.body.length ≤ q ∨ q + 4 ≤ i.1 + 4 := by
  have hbody := i.2.body_length
  have hfour := h.four
  have hinside := (h.inside i hi).1
  rcases hq with ⟨hlt, hmod⟩ | ⟨e, he⟩
  · omega
  · by_cases heq : (q, e) = i
    · rw [← heq]
      exact .inr (Nat.le_refl _)
    · have hapart := h.apart.forall he hi heq
      have hlen := e.length_le
      unfold Apart at hapart
      omega

theorem Stored.spot_lt (h : Stored siphash hsize x placed) {q : Nat}
    (hq : Spot hsize placed q) : q + 4 ≤ x.length := by
  have hfour := h.four
  have hroom := h.room
  rcases hq with ⟨hlt, hmod⟩ | ⟨e, he⟩
  · omega
  · have hlen := e.length_le
    have hinside : q + e.length ≤ x.length := (h.inside _ he).2
    omega

/-- **A link written over** leaves the entries and the other links. -/
theorem Stored.patch_link (h : Stored siphash hsize x placed) {q u : Nat}
    (hq : Spot hsize placed q) :
    (∀ i ∈ placed, Holds (memory (patch x q (le32 u))) (i.1 + 4) i.2.body) ∧
      ∀ q', Spot hsize placed q' → q' ≠ q → link (patch x q (le32 u)) q' = link x q' := by
  have hfits : q + (le32 u).length ≤ x.length := h.spot_lt hq
  refine ⟨fun i hi => ?_, fun q' hq' hne => ?_⟩
  · exact holds_patch_other hfits (h.spot_body hq hi) (h.bodies i hi)
  · exact link_patch_other hfits (h.spot_apart hq' hq hne)

/-- The links of a bucket are at different places. -/
theorem Stored.bucket_nodup (h : Stored siphash hsize x placed) {b : Nat} (head : IsHead hsize b) :
    (b :: (bucket siphash hsize placed b).map Prod.fst).Nodup := by
  refine List.nodup_cons.mpr ⟨fun hmem => ?_, ?_⟩
  · obtain ⟨i, hi, rfl⟩ := List.mem_map.mp hmem
    have hinside := (h.inside i (mem_bucket.mp hi).1).1
    have hlt := head.1
    omega
  · unfold bucket
    rw [List.map_reverse, List.nodup_reverse, List.Nodup, List.pairwise_map]
    refine (h.apart.filter _).imp fun {i j} hij => ?_
    have hi := i.2.length_le
    have hj := j.2.length_le
    unfold Apart at hij
    omega

/-- A place is in one bucket's list only. -/
theorem Stored.bucket_disjoint (h : Stored siphash hsize x placed) {b b' q : Nat}
    (head : IsHead hsize b) (head' : IsHead hsize b') (ne : b ≠ b')
    (hq : q ∈ b :: (bucket siphash hsize placed b).map Prod.fst) :
    q ∉ b' :: (bucket siphash hsize placed b').map Prod.fst := by
  intro hq'
  have hlt := head.1
  have hlt' := head'.1
  rcases List.mem_cons.mp hq with rfl | hq <;> rcases List.mem_cons.mp hq' with rfl | hq'
  · exact ne rfl
  · obtain ⟨i, hi, rfl⟩ := List.mem_map.mp hq'
    have hinside := (h.inside i (mem_bucket.mp hi).1).1
    omega
  · obtain ⟨i, hi, rfl⟩ := List.mem_map.mp hq
    have hinside := (h.inside i (mem_bucket.mp hi).1).1
    omega
  · obtain ⟨i, hi, rfl⟩ := List.mem_map.mp hq
    obtain ⟨j, hj, hij⟩ := List.mem_map.mp hq'
    obtain ⟨hi, hib⟩ := mem_bucket.mp hi
    obtain ⟨hj, hjb⟩ := mem_bucket.mp hj
    rw [h.same hj hi hij, hib] at hjb
    exact ne hjb

/-! ## The oldest entry is given up -/

variable {p : Nat} {e : Entry}

theorem bucket_cons (b : Nat) : bucket siphash hsize ((p, e) :: placed) b =
    bucket siphash hsize placed b ++ if hash siphash hsize e.key = b then [(p, e)] else [] := by
  unfold bucket
  rw [List.filter_cons]
  by_cases hb : hash siphash hsize e.key = b
  · rw [if_pos (decide_eq_true hb), if_pos hb, List.reverse_cons]
  · rw [if_neg (by rw [decide_eq_false hb]; exact Bool.false_ne_true), if_neg hb, List.append_nil]

theorem Spot.tail {q : Nat} (h : Spot hsize placed q) : Spot hsize ((p, e) :: placed) q :=
  h.imp_right fun ⟨e', he'⟩ => ⟨e', List.mem_cons_of_mem _ he'⟩

/-- The place whose link leads to the oldest entry. -/
def before (siphash : Bytes → UInt64) (hsize : Nat) (placed : List (Nat × Entry)) (e : Entry) : Nat :=
  ((bucket siphash hsize placed (hash siphash hsize e.key)).map Prod.fst).getLastD
    (hash siphash hsize e.key)

/-- The oldest entry names the place whose link leads to it. -/
theorem Stored.link_oldest (h : Stored siphash hsize x ((p, e) :: placed)) :
    link x p = before siphash hsize placed e ∧
      Spot hsize placed (before siphash hsize placed e) := by
  have hhead := hash_isHead siphash h.power e.key
  have hlist := h.lists _ hhead
  rw [bucket_cons, if_pos rfl, List.map_append] at hlist
  exact ⟨hlist.last, bucket_spot hhead List.getLastD_mem_cons⟩

/-- **Taken off the end of its list**, the oldest entry is no longer stored. -/
theorem Stored.pop (h : Stored siphash hsize x ((p, e) :: placed)) :
    Stored siphash hsize
      (patch x (before siphash hsize placed e)
        (le32 (link x (before siphash hsize placed e) ^^^ p))) placed := by
  have hhead := hash_isHead siphash h.power e.key
  obtain ⟨_, hspot⟩ := h.link_oldest
  have hp : p < 4294967296 := by
    have hinside : p + e.length ≤ x.length := (h.inside _ List.mem_cons_self).2
    have hsmall := h.small
    omega
  have hu : link x (before siphash hsize placed e) ^^^ p < 4294967296 :=
    Nat.xor_lt_two_pow (n := 32) (link_lt x _) hp
  have hspotOld : Spot hsize ((p, e) :: placed) (before siphash hsize placed e) := hspot.tail
  have hfits := h.spot_lt hspotOld
  obtain ⟨hbodies, hlinks⟩ :=
    @Stored.patch_link _ _ _ _ h _ (link x (before siphash hsize placed e) ^^^ p) hspotOld
  have hlen := @patch_length x (le32 (link x (before siphash hsize placed e) ^^^ p)) _ hfits
  refine ⟨h.power, by rw [hlen]; exact h.room, by rw [hlen]; exact h.small,
    (List.pairwise_cons.mp h.apart).2, fun i hi => ?_,
    fun i hi => hbodies i (List.mem_cons_of_mem _ hi), fun b hb => ?_⟩
  · rw [hlen]
    exact h.inside i (List.mem_cons_of_mem _ hi)
  · have hlist := h.lists b hb
    have hold (q : Nat) (hq : q ∈ b :: (bucket siphash hsize placed b).map Prod.fst) :
        Spot hsize ((p, e) :: placed) q := (bucket_spot hb hq).tail
    rw [bucket_cons, List.map_append] at hlist
    have hnodup := h.bucket_nodup hb
    rw [bucket_cons, List.map_append] at hnodup
    by_cases hkey : hash siphash hsize e.key = b
    · rw [if_pos hkey] at hlist hnodup
      -- the list of the entry's own bucket: the place before it becomes the last one
      have hbefore : ((bucket siphash hsize placed b).map Prod.fst).getLastD b =
          before siphash hsize placed e := by
        rw [← hkey]
        rfl
      refine hlist.pop (hnodup.sublist (List.Sublist.cons_cons _ (List.sublist_append_left _ _)))
        ?_ fun q hq hne => hlinks q (hold q hq) (by rwa [hbefore] at hne)
      rw [hbefore]
      exact link_patch_self hfits hu
    · rw [if_neg hkey, List.map_nil, List.append_nil] at hlist
      refine hlist.congr fun q hq => hlinks q (hold q hq) fun heq => ?_
      have hmem : before siphash hsize placed e ∈ hash siphash hsize e.key ::
          (bucket siphash hsize ((p, e) :: placed) (hash siphash hsize e.key)).map Prod.fst := by
        rw [bucket_cons, List.map_append, ← List.cons_append]
        exact List.mem_append_left _ List.getLastD_mem_cons
      refine h.bucket_disjoint hhead hb hkey hmem ?_
      rw [bucket_cons, if_neg hkey, List.append_nil, ← heq]
      exact hq

/-! ## A new entry -/

theorem bucket_snoc (b w : Nat) : bucket siphash hsize (placed ++ [(w, e)]) b =
    (if hash siphash hsize e.key = b then [(w, e)] else []) ++ bucket siphash hsize placed b := by
  unfold bucket
  rw [List.filter_append, List.reverse_append]
  congr 1
  by_cases hb : hash siphash hsize e.key = b
  · rw [if_pos hb, List.filter_cons, if_pos (decide_eq_true hb)]
    rfl
  · rw [if_neg hb, List.filter_cons, if_neg (by rw [decide_eq_false hb]; exact Bool.false_ne_true)]
    rfl

/-- The octets with an entry put behind a head link: the first entry so far learns of it, it is
written, the head leads to it. -/
def relinked (x : Bytes) (b w : Nat) : Bytes :=
  if link x b = 0 then x else patch x (link x b) (le32 (link x (link x b) ^^^ b ^^^ w))

def pushed (x : Bytes) (b w : Nat) (e : Entry) : Bytes :=
  patch (patch (relinked x b w) w (le32 (link x b ^^^ b) ++ e.body)) b (le32 w)

theorem entry_octets_length (u : Nat) (e : Entry) : (le32 u ++ e.body).length = e.length := by
  rw [List.length_append, le32_length, Nat.add_comm]
  exact e.body_length

/-- A head leads to the newest entry of its bucket. -/
theorem Stored.link_head (h : Stored siphash hsize x placed) {b : Nat} (head : IsHead hsize b) :
    link x b = ((bucket siphash hsize placed b).map Prod.fst).headD 0 := by
  rw [← (h.lists b head).next, Nat.zero_xor]

/-- The head's link, when there is one, is the first item of the list and not one of the others. -/
theorem Stored.first_item (h : Stored siphash hsize x placed) {b : Nat} (head : IsHead hsize b)
    (some : link x b ≠ 0) : link x b ∈ (bucket siphash hsize placed b).map Prod.fst ∧
      link x b ∉ ((bucket siphash hsize placed b).map Prod.fst).tail := by
  rw [h.link_head head] at some ⊢
  have hdistinct := (List.nodup_cons.mp (h.bucket_nodup head)).2
  cases hitems : (bucket siphash hsize placed b).map Prod.fst with
  | nil =>
    rw [hitems] at some
    exact absurd rfl some
  | cons first items =>
    rw [hitems] at hdistinct
    exact ⟨List.mem_cons_self, (List.nodup_cons.mp hdistinct).1⟩

theorem Stored.first_spot (h : Stored siphash hsize x placed) {b : Nat} (head : IsHead hsize b)
    (some : link x b ≠ 0) : Spot hsize placed (link x b) ∧ link x b ≠ b := by
  have hmem := (h.first_item head some).1
  refine ⟨bucket_spot head (List.mem_cons_of_mem _ hmem), fun heq => ?_⟩
  rw [heq] at hmem
  exact (List.nodup_cons.mp (h.bucket_nodup head)).1 hmem

theorem Stored.relinked_length (h : Stored siphash hsize x placed) {b : Nat}
    (head : IsHead hsize b) (w : Nat) : (relinked x b w).length = x.length := by
  unfold relinked
  split
  · rfl
  · rename_i hsome
    exact patch_length (h.spot_lt (h.first_spot head hsome).1)

/-- Putting the first entry of a list behind a new one changes its link only. -/
theorem Stored.relinked_spec (h : Stored siphash hsize x placed) {b w : Nat}
    (head : IsHead hsize b) (hw : w < 4294967296) :
    (∀ i ∈ placed, Holds (memory (relinked x b w)) (i.1 + 4) i.2.body) ∧
      (∀ q, Spot hsize placed q → (link x b ≠ 0 → q ≠ link x b) →
        link (relinked x b w) q = link x q) ∧
      (link x b ≠ 0 → link (relinked x b w) (link x b) = link x (link x b) ^^^ b ^^^ w) := by
  unfold relinked
  split
  · rename_i hnone
    exact ⟨h.bodies, fun _ _ _ => rfl, fun hsome => absurd hnone hsome⟩
  · rename_i hsome
    obtain ⟨hspot, _⟩ := h.first_spot head hsome
    obtain ⟨hbodies, hlinks⟩ := @Stored.patch_link _ _ _ _ h _ (link x (link x b) ^^^ b ^^^ w) hspot
    have hb : b < 4294967296 :=
      Nat.lt_trans head.1 (Nat.lt_of_le_of_lt h.room h.small)
    refine ⟨hbodies, fun q hq hne => hlinks q hq (hne hsome), fun _ => ?_⟩
    exact link_patch_self (h.spot_lt hspot)
      (Nat.xor_lt_two_pow (n := 32) (Nat.xor_lt_two_pow (n := 32) (link_lt x _) hb) hw)

/-- **Put behind the head of its bucket**, a new entry is stored. -/
theorem Stored.push (h : Stored siphash hsize x placed) {w : Nat} (low : hsize ≤ w)
    (high : w + e.length ≤ x.length) (free : ∀ i ∈ placed, Apart i (w, e)) :
    Stored siphash hsize (pushed x (hash siphash hsize e.key) w e) (placed ++ [(w, e)]) := by
  have hlen := e.length_le
  have hsmall := h.small
  have hw : w < 4294967296 := by omega
  have hhead := hash_isHead siphash h.power e.key
  generalize hb : hash siphash hsize e.key = b at hhead ⊢
  have hb32 : b < 4294967296 := Nat.lt_trans hhead.1 (Nat.lt_of_le_of_lt h.room hsmall)
  obtain ⟨hbodies, hlinks, hfirst⟩ := h.relinked_spec hhead hw
  have hlen₁ := h.relinked_length hhead w
  have hfits₁ : w + (le32 (link x b ^^^ b) ++ e.body).length ≤ (relinked x b w).length := by
    rw [entry_octets_length, hlen₁]
    exact high
  have hlen₂ := (patch_length hfits₁).trans hlen₁
  have hbspot : Spot hsize placed b := .inl hhead
  have hfits₂ : b + (le32 w).length ≤
      (patch (relinked x b w) w (le32 (link x b ^^^ b) ++ e.body)).length := by
    rw [hlen₂]
    exact h.spot_lt hbspot
  have hlen₃ : (pushed x b w e).length = x.length := (patch_length hfits₂).trans hlen₂
  have hspotFree (q : Nat) (hq : Spot hsize placed q) : q + 4 ≤ w ∨ w + e.length ≤ q := by
    have hfour := h.four
    rcases hq with ⟨hlt, hmod⟩ | ⟨e', he'⟩
    · omega
    · have hapart : q + e'.length ≤ w ∨ w + e.length ≤ q := free _ he'
      have hlen' := e'.length_le
      omega
  have hbw : b ≠ w := fun heq => absurd hhead.1 (Nat.not_lt.mpr (heq ▸ low))
  -- what the links are in the end
  have hlinkOld (q : Nat) (hq : Spot hsize placed q) (hqb : q ≠ b) :
      link (pushed x b w e) q = link (relinked x b w) q := by
    refine (link_patch_other hfits₂ (h.spot_apart hq hbspot hqb)).trans (link_patch_other hfits₁ ?_)
    rw [entry_octets_length]
    exact hspotFree q hq
  have hlinkHead : link (pushed x b w e) b = w := link_patch_self hfits₂ hw
  have hwritten : Holds (memory (pushed x b w e)) w (le32 (link x b ^^^ b) ++ e.body) := by
    refine holds_patch_other hfits₂ (.inr ?_) (holds_patch hfits₁)
    have hmod := hhead.2
    have hlt := hhead.1
    have hfour := h.four
    rw [le32_length]
    omega
  obtain ⟨hwlink, hwbody⟩ := holds_append.mp hwritten
  have hlinkNew : link (pushed x b w e) w = link x b ^^^ b :=
    link_of_holds hwlink (Nat.xor_lt_two_pow (n := 32) (link_lt x b) hb32)
  refine ⟨h.power, by rw [hlen₃]; exact h.room, by rw [hlen₃]; exact hsmall, ?_, ?_, ?_, ?_⟩
  · exact List.pairwise_append.mpr ⟨h.apart, List.pairwise_singleton _ _, fun i hi j hj => by
      rw [List.mem_singleton.mp hj]
      exact free i hi⟩
  · intro i hi
    rw [hlen₃]
    rcases List.mem_append.mp hi with hi | hi
    · exact h.inside i hi
    · rw [List.mem_singleton.mp hi]
      exact ⟨low, high⟩
  · intro i hi
    rcases List.mem_append.mp hi with hi | hi
    · have hbody := i.2.body_length
      refine holds_patch_other hfits₂ (h.spot_body hbspot hi)
        (holds_patch_other hfits₁ ?_ (hbodies i hi))
      have hapart : i.1 + i.2.length ≤ w ∨ w + e.length ≤ i.1 := free i hi
      rw [entry_octets_length]
      omega
    · rw [List.mem_singleton.mp hi]
      exact hwbody
  · intro b' hb'
    have hlist := h.lists b' hb'
    rw [bucket_snoc, hb, List.map_append]
    by_cases heq : b = b'
    · subst heq
      rw [if_pos rfl]
      have hnodup := h.bucket_nodup hhead
      have hheadD := h.link_head hhead
      have hspots (q : Nat) (hq : q ∈ (bucket siphash hsize placed b).map Prod.fst) :
          Spot hsize placed q ∧ q ≠ b :=
        ⟨bucket_spot hhead (List.mem_cons_of_mem _ hq),
          fun hqb => (List.nodup_cons.mp hnodup).1 (hqb ▸ hq)⟩
      refine hlist.push hlinkHead (by rw [hlinkNew, hheadD]) ?_ ?_
      · intro q hq
        have hmem := List.mem_of_mem_head? hq
        obtain ⟨hspot, hne⟩ := hspots q hmem
        have hqfirst : link x b = q := by
          rw [hheadD, List.headD_eq_head?_getD, hq]
          rfl
        have hqpos : q ≠ 0 := by
          obtain ⟨i, hi, hiq⟩ := List.mem_map.mp hmem
          have hinside := (h.inside i (mem_bucket.mp hi).1).1
          have hfour := h.four
          omega
        rw [hlinkOld q hspot hne, ← hqfirst]
        exact hfirst (hqfirst ▸ hqpos)
      · intro q hq
        obtain ⟨hspot, hne⟩ := hspots q (List.mem_of_mem_tail hq)
        rw [hlinkOld q hspot hne]
        exact hlinks q hspot fun hsome hqfirst => (h.first_item hhead hsome).2 (hqfirst ▸ hq)
    · rw [if_neg heq]
      refine hlist.congr fun q hq => ?_
      have hspot := bucket_spot hb' hq
      have hout : q ∉ b :: (bucket siphash hsize placed b).map Prod.fst :=
        fun hmem => h.bucket_disjoint hhead hb' heq hmem hq
      have hqb : q ≠ b := fun hqb => hout (hqb ▸ List.mem_cons_self)
      rw [hlinkOld q hspot hqb]
      refine hlinks q hspot fun hsome hqfirst => hout (List.mem_cons_of_mem _ ?_)
      rw [hqfirst]
      exact (h.first_item hhead hsome).1

end

end TinyDnssec.Dnscache
