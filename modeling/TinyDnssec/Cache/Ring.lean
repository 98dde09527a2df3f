import TinyDnssec.Cache.Layout

/-!
# The ring of entries

The documented invariant of the cache, and that every operation keeps it: the older half of the
ring, the newer half and the free space between them are where the cursors say, and the entries of
both are stored.

Nothing here says which entries are worth keeping, or how long the lists of the buckets get.
-/

namespace TinyDnssec.Dnscache

open Octets XorList

variable {siphash : Bytes → UInt64}

/-- **The documented invariant**, for the entries of the two halves, each from the oldest to the
newest. -/
structure Ring (siphash : Bytes → UInt64) (c : Cache) (older newer : List Entry) : Prop where
  lower : 100 ≤ c.size
  upper : c.size ≤ 1000000000
  whole : c.x.length = c.size
  table : 4 ≤ c.hsize ∧ c.hsize ≤ c.size / 16
  newerHalf : c.hsize + total newer = c.writer
  free : c.writer ≤ c.oldest
  olderHalf : c.oldest + total older = c.unused
  inside : c.unused ≤ c.size
  full : c.oldest = c.unused → c.unused = c.size
  stored : Stored siphash c.hsize c.x (places c.oldest older ++ places c.hsize newer)

/-! ## Reading and writing -/

theorem add32_eq {a b : Nat} (small : a + b < 4294967296) : add32 a b = a + b :=
  Nat.mod_eq_of_lt small

theorem sub32_eq {a b : Nat} (le : b ≤ a) : sub32 a b = a - b := if_pos le

section

variable {c : Cache} {pos : Nat}

theorem get4_eq (four : 4 ≤ c.size) (small : c.size < 4294967296) (fits : pos + 4 ≤ c.size) :
    c.get4 pos = .ok (link c.x pos) := by
  unfold Cache.get4
  rw [sub32_eq four, if_neg (by omega)]
  rfl

theorem set4_eq (four : 4 ≤ c.size) (small : c.size < 4294967296) (fits : pos + 4 ≤ c.size)
    (u : Nat) : c.set4 pos u = .ok { c with x := patch c.x pos (le32 u) } := by
  unfold Cache.set4
  rw [sub32_eq four, if_neg (by omega)]

theorem take_of_holds {x s : Bytes} (h : Holds (memory x) pos s) :
    (x.drop pos).take s.length = s :=
  (List.prefix_iff_eq_take.mp (holds_memory.mp h)).symm

/-- What a stored entry has where. -/
theorem Entry.fields {x : Bytes} (e : Entry) (h : Holds (memory x) (pos + 4) e.body) :
    link x (pos + 4) = e.key.length ∧ link x (pos + 8) = e.data.length ∧
      unbe ((x.drop (pos + 12)).take 8) = e.expire ∧
      (x.drop (pos + 20)).take e.key.length = e.key ∧
      (x.drop (pos + 20 + e.key.length)).take e.data.length = e.data := by
  have hlen := e.length_le
  unfold Entry.length at hlen
  obtain ⟨hkeylen, h⟩ := holds_append.mp h
  obtain ⟨hdatalen, h⟩ := holds_append.mp h
  obtain ⟨hexpire, h⟩ := holds_append.mp h
  obtain ⟨hkey, hdata⟩ := holds_append.mp h
  have htime := take_of_holds hexpire
  rw [be64_length] at htime
  refine ⟨link_of_holds hkeylen (by omega), link_of_holds hdatalen (by omega), ?_,
    take_of_holds hkey, take_of_holds hdata⟩
  exact (congrArg unbe htime).trans (unbe_be64 e.label)

end

/-! ## Giving up entries -/

section

variable {c : Cache} {older newer : List Entry} {e : Entry}

theorem total_cons (e : Entry) (es : List Entry) : total (e :: es) = e.length + total es :=
  List.sum_cons

theorem total_eq_zero {es : List Entry} (h : total es = 0) : es = [] := by
  cases es with
  | nil => rfl
  | cons e es =>
    rw [total_cons] at h
    have hlen := e.length_le
    omega

theorem Ring.small (h : Ring siphash c older newer) : 4 ≤ c.size ∧ c.size < 4294967296 := by
  have hlower := h.lower
  have hupper := h.upper
  omega

/-- The oldest entry, behind which the older half goes on. -/
theorem Ring.evict (h : Ring siphash c (e :: older) newer) :
    ∃ c', c.evict = .ok c' ∧ Ring siphash c' older newer ∧ c'.size = c.size ∧
      c'.hsize = c.hsize ∧ (older ≠ [] → c'.unused = c.unused) := by
  obtain ⟨hfour, hsmall⟩ := h.small
  have hlen := e.length_le
  have htotal := total_cons e older
  have holder := h.olderHalf
  have hinside := h.inside
  have hfree := h.free
  have hstored : Stored siphash c.hsize c.x
      ((c.oldest, e) :: (places (c.oldest + e.length) older ++ places c.hsize newer)) := h.stored
  obtain ⟨hlink, hspot⟩ := hstored.link_oldest
  generalize hb : before siphash c.hsize
    (places (c.oldest + e.length) older ++ places c.hsize newer) e = b at hlink hspot
  have hfits : b + 4 ≤ c.size := h.whole ▸ hstored.spot_lt hspot.tail
  have hpop := hstored.pop
  rw [hb] at hpop
  obtain ⟨hbodies, _⟩ := @Stored.patch_link _ _ _ _ hstored _ (link c.x b ^^^ c.oldest) hspot.tail
  obtain ⟨hkeylen, hdatalen, _⟩ := e.fields (hbodies _ List.mem_cons_self)
  have hsize : e.key.length + e.data.length + 20 = e.length := rfl
  have hnext : add32 c.oldest (add32 (add32 e.key.length e.data.length) 20) =
      c.oldest + e.length := by
    rw [add32_eq (a := e.key.length) (b := e.data.length) (by omega),
      add32_eq (a := e.key.length + e.data.length) (b := 20) (by omega), hsize, add32_eq (by omega)]
  have hwhole : (patch c.x b (le32 (link c.x b ^^^ c.oldest))).length = c.size :=
    (patch_length (by rw [h.whole]; exact hfits)).trans h.whole
  have hread {pos : Nat} (fits : pos + 4 ≤ c.size) :
      Cache.get4 { c with x := patch c.x b (le32 (link c.x b ^^^ c.oldest)) } pos =
        .ok (link (patch c.x b (le32 (link c.x b ^^^ c.oldest))) pos) :=
    get4_eq hfour hsmall fits
  have hrun : c.evict =
      if c.oldest + e.length > c.unused then .error .impossible
      else if c.oldest + e.length = c.unused then
        .ok { c with
          x := patch c.x b (le32 (link c.x b ^^^ c.oldest)), unused := c.size, oldest := c.size }
      else .ok { c with
        x := patch c.x b (le32 (link c.x b ^^^ c.oldest)), oldest := c.oldest + e.length } := by
    unfold Cache.evict
    rw [get4_eq hfour hsmall (by omega), hlink]
    simp only [bind, Except.bind, get4_eq hfour hsmall hfits, set4_eq hfour hsmall hfits]
    rw [add32_eq (a := c.oldest) (b := 4) (by omega), add32_eq (a := c.oldest) (b := 8) (by omega),
      hread (by omega), hread (by omega)]
    simp only [hkeylen, hdatalen, hnext]
  rw [if_neg (by omega)] at hrun
  have hrest : older = [] ∨ 0 < total older := by
    cases older with
    | nil => exact .inl rfl
    | cons e' older =>
      have hlen' := e'.length_le
      exact .inr (by rw [total_cons]; omega)
  by_cases hend : c.oldest + e.length = c.unused
  · rw [if_pos hend] at hrun
    have hnil : older = [] := hrest.resolve_right (by omega)
    subst hnil
    have hfree : c.writer ≤ c.size := by omega
    exact ⟨_, hrun, ⟨h.lower, h.upper, hwhole, h.table, h.newerHalf, hfree, rfl, Nat.le_refl _,
      fun _ => rfl, hpop⟩, rfl, rfl, fun hne => absurd rfl hne⟩
  · rw [if_neg hend] at hrun
    have hhalf : c.oldest + e.length + total older = c.unused := by omega
    have hfree : c.writer ≤ c.oldest + e.length := by omega
    exact ⟨_, hrun, ⟨h.lower, h.upper, hwhole, h.table, h.newerHalf, hfree, hhalf, h.inside,
      fun heq => absurd heq hend, hpop⟩, rfl, rfl, fun _ => rfl⟩

/-- The newer half becomes the older one when the older one is empty. -/
theorem Ring.turn (h : Ring siphash c [] newer) (some : newer ≠ []) :
    ∃ c', c.turn = Option.some c' ∧ Ring siphash c' newer [] ∧ c'.size = c.size ∧
      c'.hsize = c.hsize ∧ c'.unused = c.writer := by
  have hnewer := h.newerHalf
  have hempty : c.oldest = c.unused := h.olderHalf
  have hfree := h.free
  have hinside := h.inside
  have hsome : total newer ≠ 0 := fun heq => some (total_eq_zero heq)
  have hmore : ¬c.writer ≤ c.hsize := by omega
  have hrun : c.turn =
      Option.some { c with unused := c.writer, oldest := c.hsize, writer := c.hsize } := by
    unfold Cache.turn
    rw [if_pos hempty, if_neg hmore]
  have hstored : Stored siphash c.hsize c.x (places c.hsize newer ++ []) := by
    rw [List.append_nil]
    exact h.stored
  have hlow : c.hsize ≤ c.writer := by omega
  have hhigh : c.writer ≤ c.size := by omega
  exact ⟨_, hrun, ⟨h.lower, h.upper, h.whole, h.table, rfl, Nat.le_refl _, hnewer, hhigh,
    fun heq => absurd heq.symm.le hmore, hstored⟩, rfl, rfl, rfl⟩

/-- An empty ring does not turn. -/
theorem Ring.turn_empty (h : Ring siphash c [] []) : c.turn = none := by
  have hempty : c.oldest = c.unused := h.olderHalf
  have hnewer : c.hsize = c.writer := h.newerHalf
  unfold Cache.turn
  rw [if_pos hempty, if_pos hnewer.symm.le]

/-- An older half that has entries stays. -/
theorem Ring.turn_older (h : Ring siphash c (e :: older) newer) : c.turn = Option.some c := by
  have holder := h.olderHalf
  rw [total_cons] at holder
  have hlen := e.length_le
  have hne : c.oldest ≠ c.unused := by omega
  unfold Cache.turn
  rw [if_neg hne]

/-- A cache that has given up some of its oldest entries. -/
structure Shrunk (siphash : Bytes → UInt64) (c c' : Cache) (kept older newer : List Entry) :
    Prop where
  ring : Ring siphash c' older newer
  size : c'.size = c.size
  hsize : c'.hsize = c.hsize
  suffix : older ++ newer <:+ kept

/-- Between the older half and the end of the buffer there is less than the first entry of the newer half
takes, or the entry of this length that is to be the first. -/
def Packed (c : Cache) (older newer : List Entry) (len : Nat) : Prop :=
  older ≠ [] → c.size < c.unused + (newer.map Entry.length).headD len

/-- So many octets do not hold an entry of this length and those behind it, and the longest of these once
more. -/
def Crowded (space len : Nat) (behind : List Nat) : Prop :=
  space < len + behind.sum + behind.foldr max 0

/-- Entries were given up, the oldest first, and none while there was room for it beside those behind it and
others that ask for room. -/
def GaveUp (space : Nat) (asked : List Nat) (kept kept' : List Entry) : Prop :=
  ∀ gone e, kept = gone ++ e :: kept' → Crowded space e.length (kept'.map Entry.length ++ asked)

theorem le_foldr_max {l : List Nat} {n : Nat} (h : n ∈ l) : n ≤ l.foldr max 0 :=
  List.le_max_of_le h (Nat.le_refl n)

theorem GaveUp.refl (space : Nat) (asked : List Nat) (kept : List Entry) : GaveUp space asked kept kept := by
  intro gone e h
  have hlen := congrArg List.length h
  rw [List.length_append, List.length_cons] at hlen
  omega

theorem sum_lengths_append (es : List Entry) (n : Nat) :
    (es.map Entry.length ++ [n]).sum = total es + n := by
  rw [List.sum_append, List.sum_singleton]
  rfl

theorem total_append_list (es es' : List Entry) : total (es ++ es') = total es + total es' := by
  unfold total
  rw [List.map_append, List.sum_append]

/-- One round of the loop gives up the oldest entry, in whichever half it is, when an entry of some length
does not fit into the free space. -/
theorem Ring.round (h : Ring siphash c older newer) (some : older ++ newer ≠ []) :
    ∃ c₁ c' e older' newer', c.turn = Option.some c₁ ∧ c₁.evict = .ok c' ∧
      Shrunk siphash c c' (older ++ newer) older' newer' ∧ older ++ newer = e :: (older' ++ newer') ∧
      ∀ len, c.writer + len > c.oldest → Packed c older newer len → Packed c' older' newer' len ∧
        Crowded (c.size - c.hsize) e.length ((older' ++ newer').map Entry.length ++ [len]) := by
  have hnewer := h.newerHalf
  have holder := h.olderHalf
  have htable := h.table
  cases older with
  | cons e older =>
    obtain ⟨c', hevict, hring, hsize, hhsize, hunused⟩ := h.evict
    refine ⟨c, c', e, older, newer, h.turn_older, hevict,
      ⟨hring, hsize, hhsize, List.suffix_cons e (older ++ newer)⟩, rfl, fun len tight packed => ⟨?_, ?_⟩⟩
    · intro hne
      rw [hsize, hunused hne]
      exact packed (List.cons_ne_nil _ _)
    · have hpacked := packed (List.cons_ne_nil e older)
      have hhead : (newer.map Entry.length).headD len ≤
          ((older ++ newer).map Entry.length ++ [len]).foldr max 0 := by
        apply le_foldr_max
        cases newer with
        | nil => exact List.mem_append_right _ (List.mem_singleton_self len)
        | cons n newer =>
          refine List.mem_append_left _ (List.mem_map_of_mem ?_)
          exact List.mem_append_right older List.mem_cons_self
      unfold Crowded
      rw [sum_lengths_append, total_append_list]
      rw [total_cons] at holder
      omega
  | nil =>
    obtain ⟨c₁, hturn, hring₁, hsize₁, hhsize₁, hunused₁⟩ := h.turn some
    have hfull := h.full holder
    have hempty : c.oldest = c.unused := holder
    cases newer with
    | nil => exact absurd rfl some
    | cons e newer =>
      obtain ⟨c', hevict, hring, hsize, hhsize, hunused⟩ := hring₁.evict
      refine ⟨c₁, c', e, newer, [], hturn, hevict,
        ⟨hring, hsize.trans hsize₁, hhsize.trans hhsize₁, ?_⟩, ?_, fun len tight _ => ⟨?_, ?_⟩⟩
      · rw [List.append_nil]
        exact List.suffix_cons e newer
      · rw [List.append_nil]
        rfl
      · intro hne
        rw [hsize, hsize₁, hunused hne, hunused₁]
        show c.size < c.writer + len
        omega
      · unfold Crowded
        rw [sum_lengths_append, List.append_nil]
        rw [total_cons] at hnewer
        omega

/-- **Room is made from the oldest entry on**, no more than is needed, and an entry that fits behind the
table gets it. -/
theorem Ring.makeRoom {entrylen : Nat} (short : entrylen ≤ 1001020) {rounds : Nat}
    (h : Ring siphash c older newer) (enough : (older ++ newer).length < rounds) :
    ∃ room c' older' newer', c.makeRoom entrylen rounds = .ok (room, c') ∧
      Shrunk siphash c c' (older ++ newer) older' newer' ∧
      (room = true ↔ c.hsize + entrylen ≤ c.size) ∧
      (room = true → c'.writer + entrylen ≤ c'.oldest) ∧
      (room = false → older' ++ newer' = []) ∧
      (Packed c older newer entrylen → Packed c' older' newer' entrylen ∧
        GaveUp (c.size - c.hsize) [entrylen] (older ++ newer) (older' ++ newer')) := by
  induction rounds generalizing c older newer with
  | zero => exact absurd enough (Nat.not_lt_zero _)
  | succ rounds ih =>
    have hupper := h.upper
    have hfree := h.free
    have hnewer := h.newerHalf
    have holder := h.olderHalf
    have hinside := h.inside
    have hsum : add32 c.writer entrylen = c.writer + entrylen := add32_eq (by omega)
    rw [Cache.makeRoom, hsum]
    by_cases hroom : c.writer + entrylen > c.oldest
    · rw [if_pos hroom]
      by_cases hempty : older ++ newer = []
      · obtain ⟨rfl, rfl⟩ := List.append_eq_nil_iff.mp hempty
        have hwriter : c.hsize = c.writer := hnewer
        have hend : c.oldest = c.unused := holder
        have hsize := h.full hend
        rw [h.turn_empty]
        exact ⟨false, c, [], [], rfl, ⟨h, rfl, rfl, List.suffix_refl _⟩,
          iff_of_false Bool.false_ne_true (by omega), fun ht => absurd ht Bool.false_ne_true,
          fun _ => rfl, fun packed => ⟨packed, .refl _ _ _⟩⟩
      · obtain ⟨c₁, c₂, e, older₂, newer₂, hturn, hevict, hshrunk, hfirst, hround⟩ := h.round hempty
        have hlength := congrArg List.length hfirst
        rw [List.length_cons] at hlength
        obtain ⟨room, c', older', newer', hrun, hshrunk', hfits, hyes, hno, hgave⟩ :=
          ih hshrunk.ring (by omega)
        rw [hturn]
        simp only [hevict, bind, Except.bind]
        rw [hshrunk.hsize, hshrunk.size] at hfits hgave
        refine ⟨room, c', older', newer', hrun, ⟨hshrunk'.ring, hshrunk'.size.trans hshrunk.size,
          hshrunk'.hsize.trans hshrunk.hsize, hshrunk'.suffix.trans hshrunk.suffix⟩, hfits, hyes,
          hno, fun packed => ?_⟩
        obtain ⟨hpacked, hcrowded⟩ := hround entrylen hroom packed
        obtain ⟨hpacked', hgave⟩ := hgave hpacked
        refine ⟨hpacked', fun gone d hsplit => ?_⟩
        rw [hfirst] at hsplit
        cases gone with
        | nil =>
          obtain ⟨rfl, hkept⟩ := List.cons.inj hsplit
          exact hkept ▸ hcrowded
        | cons first gone => exact hgave gone d (List.cons.inj hsplit).2
    · rw [if_neg hroom]
      exact ⟨true, c, older, newer, rfl, ⟨h, rfl, rfl, List.suffix_refl _⟩,
        iff_of_true rfl (by omega), fun _ => by omega, fun ht => absurd ht.symm Bool.false_ne_true,
        fun packed => ⟨packed, .refl _ _ _⟩⟩

end

/-! ## A new entry -/

section

variable {c : Cache} {older newer : List Entry} {e : Entry}

/-- The fields of an entry, written one by one, are the entry. -/
theorem entry_written {x : Bytes} {w u : Nat} (fits : w + e.length ≤ x.length) :
    patch (patch (patch (patch (patch (patch x w (le32 u)) (w + 4) (le32 e.key.length)) (w + 8)
      (le32 e.data.length)) (w + 12) (be64 e.expire)) (w + 20) e.key) (w + 20 + e.key.length)
      e.data = patch x w (le32 u ++ e.body) := by
  have hlen : e.key.length + e.data.length + 20 = e.length := rfl
  have hstep (s t : Bytes) (q n : Nat) (len : s.length = n) (place : q = w + n)
      (short : n ≤ e.length) : patch (patch x w s) q t = patch x w (s ++ t) := by
    rw [place, ← len]
    exact patch_patch _ _ (by omega)
  rw [hstep _ _ (w + 4) 4 (le32_length u) rfl (by omega),
    hstep _ _ (w + 8) 8 (by simp only [List.length_append, le32_length]) rfl (by omega),
    hstep _ _ (w + 12) 12 (by simp only [List.length_append, le32_length]) rfl (by omega),
    hstep _ _ (w + 20) 20 (by simp only [List.length_append, le32_length, be64_length]) rfl
      (by omega),
    hstep _ _ (w + 20 + e.key.length) (20 + e.key.length)
      (by simp only [List.length_append, le32_length, be64_length]) (Nat.add_assoc _ _ _)
      (by omega)]
  unfold Entry.body
  simp only [List.append_assoc]

/-- Whoever was first in the list learns of the new entry. -/
theorem Ring.relink (h : Ring siphash c older newer) {b : Nat} (head : IsHead c.hsize b) :
    c.relink b (link c.x b) = .ok { c with x := relinked c.x b c.writer } := by
  obtain ⟨hfour, hsmall⟩ := h.small
  unfold Cache.relink relinked
  by_cases hnone : link c.x b = 0
  · rw [if_pos hnone, if_pos hnone]
  · have hfits : link c.x b + 4 ≤ c.size :=
      h.whole ▸ h.stored.spot_lt (h.stored.first_spot head hnone).1
    rw [if_neg hnone, if_neg hnone, get4_eq hfour hsmall hfits]
    exact set4_eq hfour hsmall hfits _

/-- No place of the ring is in the free space. -/
theorem Ring.places_free (h : Ring siphash c older newer)
    (room : c.writer + e.length ≤ c.oldest) :
    ∀ i ∈ places c.oldest older ++ places c.hsize newer, Apart i (c.writer, e) := by
  have hnewer := h.newerHalf
  intro i hi
  rcases List.mem_append.mp hi with hi | hi
  · exact .inr (Nat.le_trans room (mem_places hi).1)
  · exact .inl (Nat.le_trans (mem_places hi).2.1 hnewer.le)

/-- **A new entry in the free space** is the newest one of the ring. -/
theorem Ring.store (h : Ring siphash c older newer) (room : c.writer + e.length ≤ c.oldest) :
    ∃ c', c.store (hash siphash c.hsize e.key) e.key e.data e.expire = .ok c' ∧
      Ring siphash c' older (newer ++ [e]) ∧ c'.size = c.size ∧ c'.hsize = c.hsize ∧
        c'.unused = c.unused := by
  obtain ⟨hfour, hsmall⟩ := h.small
  have hwhole := h.whole
  have hnewer := h.newerHalf
  have holder := h.olderHalf
  have hinside := h.inside
  have hlen : e.key.length + e.data.length + 20 = e.length := rfl
  have hhead := hash_isHead siphash h.stored.power e.key
  have hhigh : c.writer + e.length ≤ c.x.length := by omega
  have hpush := h.stored.push (by omega) hhigh (h.places_free room)
  generalize hash siphash c.hsize e.key = b at hhead hpush ⊢
  have hb : b + 4 ≤ c.size := hwhole ▸ h.stored.spot_lt (.inl hhead)
  have hset {x : Bytes} {pos : Nat} (fits : pos + 4 ≤ c.size) (u : Nat) :
      Cache.set4 { c with x := x } pos u = .ok { c with x := patch x pos (le32 u) } :=
    @set4_eq { c with x := x } pos hfour hsmall fits u
  have hrelinked := h.stored.relinked_length hhead c.writer
  have hwritten := @entry_written e (relinked c.x b c.writer) c.writer (link c.x b ^^^ b)
    (by omega)
  have hnext : add32 c.writer (e.key.length + e.data.length + 20) = c.writer + e.length :=
    add32_eq (by omega)
  have hrun : c.store b e.key e.data e.expire = .ok { c with
      x := pushed c.x b c.writer e
      writer := c.writer + e.length
      motion := (c.motion + e.length) % 18446744073709551616 } := by
    have hfield : c.writer + 0 + 4 ≤ c.size ∧ c.writer + 4 + 4 ≤ c.size ∧
        c.writer + 8 + 4 ≤ c.size := by omega
    have hkeylen : add32 c.writer 4 = c.writer + 4 := add32_eq (by omega)
    have hdatalen : add32 c.writer 8 = c.writer + 8 := add32_eq (by omega)
    unfold Cache.store
    rw [get4_eq hfour hsmall hb]
    simp only [bind, Except.bind, h.relink hhead, hset hfield.1, hset hfield.2.1, hset hfield.2.2,
      hset hb, hkeylen, hdatalen, hwritten, hnext]
    rfl
  have hroom := h.stored.room
  have hsmallx := h.stored.small
  have hpushed : (pushed c.x b c.writer e).length = c.size := by
    have hfits : c.writer + (le32 (link c.x b ^^^ b) ++ e.body).length ≤
        (relinked c.x b c.writer).length := by
      rw [entry_octets_length, hrelinked]
      exact hhigh
    have hinner := (patch_length hfits).trans hrelinked
    refine (patch_length ?_).trans (hinner.trans hwhole)
    rw [hinner, le32_length, hwhole]
    exact hb
  have htotal : c.hsize + total (newer ++ [e]) = c.writer + e.length := by
    rw [total_append]
    omega
  have hplaces : places c.oldest older ++ places c.hsize (newer ++ [e]) =
      places c.oldest older ++ places c.hsize newer ++ [(c.writer, e)] := by
    rw [places_append, hnewer, List.append_assoc]
  exact ⟨_, hrun, ⟨h.lower, h.upper, hpushed, h.table, htotal, room, holder, hinside, h.full,
    hplaces ▸ hpush⟩, rfl, rfl, rfl⟩

end

/-! ## `cache_set` -/

/-- A call of `cache_set` within the limits of key, data and space, and with some time to live. -/
def Fits (space : Nat) (key data : Bytes) (ttl : Nat) : Prop :=
  key.length ≤ maxKeyLen ∧ data.length ≤ maxDataLen ∧ ttl ≠ 0 ∧
    key.length + data.length + 20 ≤ space

instance (space : Nat) (key data : Bytes) (ttl : Nat) : Decidable (Fits space key data ttl) :=
  inferInstanceAs (Decidable (_ ∧ _))

/-- What a call of `cache_set` files in a ring of so many octets. -/
def newEntry (space cur : Nat) (key data : Bytes) (ttl : Nat) : Option Entry :=
  if fits : Fits space key data ttl then
    some
      { key := key
        data := data
        expire := (cur + min ttl maxTtl) % 18446744073709551616
        shortKey := fits.1
        shortData := fits.2.1
        label := Nat.mod_lt _ (by decide) }
  else none

theorem newEntry_eq_none {space cur : Nat} {key data : Bytes} {ttl : Nat}
    (refused : ¬Fits space key data ttl) : newEntry space cur key data ttl = none :=
  dif_neg refused

theorem newEntry_eq_some {space cur : Nat} {key data : Bytes} {ttl : Nat}
    (fits : Fits space key data ttl) : ∃ e, newEntry space cur key data ttl = some e ∧ e.key = key ∧
      e.data = data ∧ e.expire = (cur + min ttl maxTtl) % 18446744073709551616 :=
  ⟨_, dif_pos fits, rfl, rfl, rfl⟩

/-- The octets that a call of `cache_set` makes room for. -/
def asked (key data : Bytes) (ttl : Nat) : List Nat :=
  if key.length ≤ maxKeyLen ∧ data.length ≤ maxDataLen ∧ ttl ≠ 0 then
    [key.length + data.length + 20]
  else []

theorem newEntry_asked {space cur : Nat} {key data : Bytes} {ttl : Nat} :
    ((newEntry space cur key data ttl).toList.map Entry.length).Sublist (asked key data ttl) := by
  unfold newEntry asked
  split
  · rename_i fits
    rw [if_pos ⟨fits.1, fits.2.1, fits.2.2.1⟩]
    exact .refl _
  · exact List.nil_sublist _

theorem newEntry_fields {space cur : Nat} {key data : Bytes} {ttl : Nat} {e : Entry}
    (h : newEntry space cur key data ttl = some e) : e.key = key ∧ e.data = data := by
  by_cases fits : Fits space key data ttl
  · obtain ⟨e', hentry, hkey, hdata, _⟩ := @newEntry_eq_some _ cur _ _ _ fits
    cases Option.some.inj (hentry.symm.trans h)
    exact ⟨hkey, hdata⟩
  · rw [newEntry_eq_none fits] at h
    cases h

section

variable {c : Cache} {older newer : List Entry}

/-- An entry takes twenty octets at least. -/
theorem length_le_total (es : List Entry) : es.length ≤ total es := by
  induction es with
  | nil => exact Nat.le_refl _
  | cons e es ih =>
    have hlen := e.length_le
    rw [total_cons, List.length_cons]
    omega

/-- There are fewer entries than octets. -/
theorem Ring.length_lt (h : Ring siphash c older newer) :
    (older ++ newer).length < c.size + 1 := by
  have holder := h.olderHalf
  have hnewer := h.newerHalf
  have hfree := h.free
  have hinside := h.inside
  have hlen := length_le_total older
  have hlen' := length_le_total newer
  rw [List.length_append]
  omega

/-- A call beyond the limits on key, data or time to live changes nothing. -/
theorem cacheSet_refused {cur : Nat} {key data : Bytes} {ttl : Nat}
    (refused : ¬(key.length ≤ maxKeyLen ∧ data.length ≤ maxDataLen ∧ ttl ≠ 0)) :
    cacheSet siphash cur key data ttl c = .ok c := by
  unfold cacheSet
  split
  · rfl
  · rename_i hkey
    split
    · rfl
    · rename_i hdata
      split
      · rfl
      · rename_i httl
        exact absurd ⟨Nat.not_lt.mp hkey, Nat.not_lt.mp hdata, httl⟩ refused

/-- **A call of `cache_set`** gives up the oldest entries it has to and files a new one. -/
theorem Ring.cacheSet (h : Ring siphash c older newer) (cur : Nat) (key data : Bytes) (ttl : Nat) :
    ∃ c' older' newer', cacheSet siphash cur key data ttl c = .ok c' ∧
      Shrunk siphash c c' (older ++ newer ++ (newEntry (c.size - c.hsize) cur key data ttl).toList)
        older' newer' ∧
      (Packed c older newer 0 → Packed c' older' newer' 0 ∧ ∃ kept,
        older' ++ newer' = kept ++ (newEntry (c.size - c.hsize) cur key data ttl).toList ∧
          GaveUp (c.size - c.hsize) (asked key data ttl) (older ++ newer) kept) := by
  by_cases hlimits : key.length ≤ maxKeyLen ∧ data.length ≤ maxDataLen ∧ ttl ≠ 0
  · have hlimits' := hlimits
    obtain ⟨hkey, hdata, httl⟩ := hlimits'
    have hshort : key.length + data.length + 20 ≤ 1001020 := by
      unfold maxKeyLen at hkey
      unfold maxDataLen at hdata
      omega
    have htable := h.table
    have hasked : asked key data ttl = [key.length + data.length + 20] := if_pos hlimits
    obtain ⟨room, c₁, older₁, newer₁, hroom, hshrunk, hfits, hyes, hno, hgave⟩ :=
      h.makeRoom hshort h.length_lt
    have hpacked (packed : Packed c older newer 0) :
        Packed c older newer (key.length + data.length + 20) := by
      intro hne
      have hzero := packed hne
      have hinside := h.inside
      cases newer with
      | nil => exact absurd hinside (Nat.not_le.mpr hzero)
      | cons n newer => exact hzero
    have hrun : Dnscache.cacheSet siphash cur key data ttl c =
        if !room then .ok c₁
        else c₁.store (hash siphash c₁.hsize key) key data
          ((cur + min ttl maxTtl) % 18446744073709551616) := by
      unfold Dnscache.cacheSet
      rw [if_neg (Nat.not_lt.mpr hkey), if_neg (Nat.not_lt.mpr hdata), if_neg httl]
      simp only [hroom, bind, Except.bind]
    cases room with
    | false =>
      -- larger than the ring: everything has been given up, nothing is stored
      have hlarge : ¬Fits (c.size - c.hsize) key data ttl := fun hspace =>
        absurd (hfits.mpr (by have hle := hspace.2.2.2; omega)) Bool.false_ne_true
      rw [newEntry_eq_none hlarge, Option.toList_none, List.append_nil, hasked]
      refine ⟨c₁, older₁, newer₁, hrun, hshrunk, fun packed => ⟨?_, older₁ ++ newer₁, ?_, ?_⟩⟩
      · exact fun hne => absurd (List.append_eq_nil_iff.mp (hno rfl)).1 hne
      · exact (List.append_nil _).symm
      · exact (hgave (hpacked packed)).2
    | true =>
      have hspace : Fits (c.size - c.hsize) key data ttl := by
        have hle := hfits.mp rfl
        exact ⟨hkey, hdata, httl, by omega⟩
      obtain ⟨e, hentry, rfl, rfl, hexpire⟩ := @newEntry_eq_some _ cur _ _ _ hspace
      obtain ⟨c', hstore, hring, hsize, hhsize, hunused⟩ := hshrunk.ring.store (hyes rfl)
      rw [hentry, hasked]
      refine ⟨c', older₁, newer₁ ++ [e], ?_, ⟨hring, hsize.trans hshrunk.size,
        hhsize.trans hshrunk.hsize, ?_⟩, fun packed => ⟨?_, older₁ ++ newer₁, ?_, ?_⟩⟩
      · rw [hrun, ← hexpire]
        exact hstore
      · obtain ⟨gone, hgone⟩ := hshrunk.suffix
        exact ⟨gone, by rw [← hgone]; simp only [Option.toList_some, List.append_assoc]⟩
      · intro hne
        have hroomy := (hgave (hpacked packed)).1 hne
        rw [hsize, hunused]
        cases newer₁ with
        | nil => exact hroomy
        | cons n newer₁ => exact hroomy
      · rw [Option.toList_some, List.append_assoc]
      · exact (hgave (hpacked packed)).2
  · rw [cacheSet_refused hlimits, newEntry_eq_none fun hspace =>
      hlimits ⟨hspace.1, hspace.2.1, hspace.2.2.1⟩, Option.toList_none, List.append_nil]
    exact ⟨c, older, newer, rfl, ⟨h, rfl, rfl, List.suffix_refl _⟩,
      fun packed => ⟨packed, older ++ newer, (List.append_nil _).symm, .refl _ _ _⟩⟩

end

end TinyDnssec.Dnscache
