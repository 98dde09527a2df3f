import TinyDnssec.Base.Bytes

/-!
# Partial memories

A buffer under construction is read at positions that stay as they are and written at others. A
partial memory is a buffer of which only some octets may be relied on; what holds of a smaller
memory holds of every memory that contains it. A buffer that has grown contains its old self, and
a buffer with a field patched contains its old self without the field.
-/

namespace Octets

abbrev Memory := Nat → Option UInt8

/-- The octets of a buffer, at their positions. -/
def memory (buf : Bytes) : Memory := fun i => buf[i]?

/-- Everything the one memory relies on, the other has too. -/
def Within (m m' : Memory) : Prop := ∀ i b, m i = some b → m' i = some b

/-- The memory has the octets of a string from a position on. -/
def Holds (m : Memory) (pos : Nat) (s : Bytes) : Prop :=
  ∀ i b, s[i]? = some b → m (pos + i) = some b

theorem Within.refl (m : Memory) : Within m m := fun _ _ h => h

theorem Within.trans {m m' m'' : Memory} (h : Within m m') (h' : Within m' m'') : Within m m'' :=
  fun i b hb => h' i b (h i b hb)

theorem Holds.mono {m m' : Memory} {pos : Nat} {s : Bytes} (h : Holds m pos s)
    (within : Within m m') : Holds m' pos s :=
  fun i b hb => within _ b (h i b hb)

/-- A memory holds one string of a length at a position. -/
theorem Holds.unique {m : Memory} {pos : Nat} {s t : Bytes} (h : Holds m pos s) (h' : Holds m pos t)
    (same : s.length = t.length) : s = t := by
  apply List.ext_getElem same
  intro i hs ht
  have hat := h i _ (List.getElem?_eq_getElem hs)
  have hat' := h' i _ (List.getElem?_eq_getElem ht)
  exact Option.some_inj.mp (hat.symm.trans hat')

theorem holds_nil (m : Memory) (pos : Nat) : Holds m pos [] := fun _ _ h => by cases h

theorem holds_cons {m : Memory} {pos : Nat} {b : UInt8} {s : Bytes} :
    Holds m pos (b :: s) ↔ m pos = some b ∧ Holds m (pos + 1) s := by
  constructor
  · intro h
    refine ⟨h 0 b rfl, fun i c hc => ?_⟩
    rw [Nat.add_assoc, Nat.add_comm 1]
    exact h (i + 1) c hc
  · rintro ⟨hb, hs⟩ i c hc
    cases i with
    | zero => cases hc; exact hb
    | succ i =>
      have h := hs i c hc
      rwa [Nat.add_assoc, Nat.add_comm 1] at h

theorem holds_append {m : Memory} {pos : Nat} {s t : Bytes} :
    Holds m pos (s ++ t) ↔ Holds m pos s ∧ Holds m (pos + s.length) t := by
  induction s generalizing pos with
  | nil => exact (and_iff_right (holds_nil m pos)).symm
  | cons b s ih =>
    rw [List.cons_append, holds_cons, holds_cons, ih, and_assoc, List.length_cons,
      Nat.add_assoc pos 1, Nat.add_comm 1]

/-- A buffer holds what stands at the position as a prefix of the rest. -/
theorem holds_memory {buf s : Bytes} {pos : Nat} : Holds (memory buf) pos s ↔ s <+: buf.drop pos := by
  induction s generalizing pos with
  | nil => exact iff_of_true (holds_nil _ _) List.nil_prefix
  | cons b s ih =>
    rw [holds_cons, ih, memory]
    cases hget : buf[pos]? with
    | none =>
      rw [List.drop_of_length_le (List.getElem?_eq_none_iff.mp hget)]
      exact iff_of_false (fun h => by cases h.1) fun h => by cases List.prefix_nil.mp h
    | some c =>
      obtain ⟨hlt, hc⟩ := List.getElem?_eq_some_iff.mp hget
      rw [List.drop_eq_getElem_cons hlt, hc, List.cons_prefix_cons, Option.some_inj]
      exact and_congr_left' eq_comm

/-- A grown buffer contains the old one. -/
theorem within_append (buf s : Bytes) : Within (memory buf) (memory (buf ++ s)) := by
  intro i b h
  obtain ⟨hlt, _⟩ := List.getElem?_eq_some_iff.mp h
  rw [memory, List.getElem?_append_left hlt]
  exact h

/-- What is added to a buffer stands behind what it had. -/
theorem holds_append_right (buf s : Bytes) : Holds (memory (buf ++ s)) buf.length s :=
  holds_memory.mpr (by rw [List.drop_left])

/-! ## Buffers with holes -/

/-- The octets of a buffer outside a hole. -/
def stable (hole : Nat → Bool) (buf : Bytes) : Memory := fun i => if hole i then none else buf[i]?

theorem stable_within (hole : Nat → Bool) (buf : Bytes) :
    Within (stable hole buf) (memory buf) := by
  intro i b h
  rw [stable] at h
  split at h
  · cases h
  · exact h

/-- Octets that agree outside the hole, and a hole that does not grow. -/
theorem stable_mono {hole hole' : Nat → Bool} {buf buf' : Bytes}
    (closes : ∀ i, i < buf.length → hole' i = true → hole i = true)
    (agrees : ∀ i, i < buf.length → hole i = false → buf'[i]? = buf[i]?) :
    Within (stable hole buf) (stable hole' buf') := by
  intro i b h
  rw [stable] at h ⊢
  split at h
  · cases h
  · rename_i hout
    obtain ⟨hlt, _⟩ := List.getElem?_eq_some_iff.mp h
    have hout : hole i = false := Bool.eq_false_iff.mpr hout
    rw [if_neg (fun h' => by rw [closes i hlt h'] at hout; cases hout), agrees i hlt hout]
    exact h

theorem stable_append (hole : Nat → Bool) (buf s : Bytes) :
    Within (stable hole buf) (stable hole (buf ++ s)) :=
  stable_mono (fun _ _ h => h) fun _ hlt _ => List.getElem?_append_left hlt

/-- A string outside the hole is stable. -/
theorem holds_stable {hole : Nat → Bool} {buf s : Bytes} {pos : Nat}
    (h : Holds (memory buf) pos s) (out : ∀ i, pos ≤ i → i < pos + s.length → hole i = false) :
    Holds (stable hole buf) pos s := by
  intro i b hb
  obtain ⟨hlt, _⟩ := List.getElem?_eq_some_iff.mp hb
  rw [stable, out (pos + i) (Nat.le_add_right _ _) (by omega)]
  exact h i b hb

/-! ## Patches -/

/-- A buffer with a field written over. -/
def patch (buf : Bytes) (pos : Nat) (s : Bytes) : Bytes :=
  buf.take pos ++ s ++ buf.drop (pos + s.length)

theorem patch_length {buf s : Bytes} {pos : Nat} (fits : pos + s.length ≤ buf.length) :
    (patch buf pos s).length = buf.length := by
  simp only [patch, List.length_append, List.length_take, List.length_drop]
  omega

/-- Fields written one behind the other are one field. -/
theorem patch_patch {buf : Bytes} {pos : Nat} (s t : Bytes) (fits : pos + s.length ≤ buf.length) :
    patch (patch buf pos s) (pos + s.length) t = patch buf pos (s ++ t) := by
  have reach : (buf.take pos ++ s).length = pos + s.length := by
    rw [List.length_append, List.length_take_of_le (by omega)]
  unfold patch
  rw [List.take_left' reach, ← reach, List.drop_length_add_append, List.drop_drop, reach,
    List.length_append, Nat.add_assoc]
  simp only [List.append_assoc]

theorem patch_zero (buf s : Bytes) : patch buf 0 s = s ++ buf.drop s.length := by
  unfold patch
  rw [List.take_zero, List.nil_append, Nat.zero_add]

theorem patch_cons (b : UInt8) (buf s : Bytes) (n : Nat) :
    patch (b :: buf) (n + 1) s = b :: patch buf n s := by
  unfold patch
  rw [List.take_succ_cons, Nat.add_right_comm, List.drop_succ_cons, List.cons_append,
    List.cons_append]

theorem patch_append (front buf s : Bytes) :
    patch (front ++ buf) front.length s = front ++ (s ++ buf.drop s.length) := by
  induction front with
  | nil => exact patch_zero buf s
  | cons b front ih => rw [List.cons_append, List.length_cons, patch_cons, ih, List.cons_append]

theorem holds_patch {buf s : Bytes} {pos : Nat} (fits : pos + s.length ≤ buf.length) :
    Holds (memory (patch buf pos s)) pos s := by
  have hlen : (buf.take pos).length = pos := by
    rw [List.length_take]
    omega
  have hdrop : (buf.take pos ++ (s ++ buf.drop (pos + s.length))).drop pos =
      s ++ buf.drop (pos + s.length) := List.drop_left' hlen
  rw [holds_memory, patch, List.append_assoc, hdrop]
  exact List.prefix_append _ _

theorem getElem?_patch {buf s : Bytes} {pos i : Nat} (fits : pos + s.length ≤ buf.length)
    (out : i < pos ∨ pos + s.length ≤ i) : (patch buf pos s)[i]? = buf[i]? := by
  have hlen : (buf.take pos).length = pos := by
    rw [List.length_take]
    omega
  rw [patch, List.append_assoc]
  rcases out with h | h
  · rw [List.getElem?_append_left (by omega), List.getElem?_take_of_lt h]
  · rw [List.getElem?_append_right (by omega), List.getElem?_append_right (by omega), hlen,
      List.getElem?_drop]
    congr 1
    omega

/-! ## Copying within a buffer -/

/-- Copy octets within a buffer, from the first one on. -/
def copyDown : Nat → Nat → Nat → Bytes → Bytes
  | 0, _, _, buf => buf
  | n + 1, dst, src, buf => copyDown n (dst + 1) (src + 1) (buf.set dst (buf.getD src 0))

/-- Octets that are copied towards the front arrive as they were, also where the two places have some
in common. -/
theorem copyDown_eq {buf : Bytes} {n dst src : Nat} (order : dst ≤ src)
    (fits : src + n ≤ buf.length) :
    copyDown n dst src buf = patch buf dst ((buf.drop src).take n) := by
  induction n generalizing dst src buf with
  | zero =>
    rw [copyDown, List.take_zero, patch, List.append_nil, List.length_nil, Nat.add_zero,
      List.take_append_drop]
  | succ n ih =>
    have inside : src < buf.length := by omega
    have room : src + 1 + n ≤ (buf.set dst buf[src]).length := by
      rw [List.length_set]
      omega
    have here : buf.getD src 0 = buf[src] := by
      rw [List.getD_eq_getElem?_getD, List.getElem?_eq_getElem inside, Option.getD_some]
    have moved : (buf.set dst buf[src]).take (dst + 1) = buf.take dst ++ [buf[src]] := by
      rw [List.take_add_one, List.take_set_of_le (Nat.le_refl dst),
        List.getElem?_set_self (by omega), Option.toList_some]
    rw [copyDown, here, ih (by omega) room, List.drop_set_of_lt (by omega),
      List.drop_eq_getElem_cons inside, List.take_succ_cons]
    unfold patch
    rw [moved, List.drop_set_of_lt (by omega), List.length_cons, List.append_assoc,
      List.append_assoc, List.append_assoc, Nat.add_right_comm, Nat.add_assoc dst]
    rfl

end Octets
