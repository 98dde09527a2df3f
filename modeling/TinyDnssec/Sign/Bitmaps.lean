import TinyDnssec.Base.Decimal

/-!
# Type bitmaps

The last field of an NSEC3 record lists the types of records that a name has, in windows of 256
types, each with a bitmap of as many octets as it needs. `genTypeBitmaps` of `tinydns-sign` sorts
numbers as Perl does, by their text, and cuts zero octets off the end with a pattern whose `$` may
stand in front of a newline; the reader of such a field takes the windows in ascending order and
finds a type by the place of its bit.

Which types a name has is up to the caller; `Sign.Zone` has that.
-/

namespace TinyDnssec.Sign

open Octets

/-! ## `genTypeBitmaps` -/

/-- `sort`, which compares numbers by their texts. -/
def sortNumbers (ns : List Nat) : List Nat := ns.mergeSort fun a b => decide (decimal a ≤ decimal b)

/-- The types with the one of the signature, unless there is none or a delegation only. -/
def withRrsig (types : List Nat) : List Nat :=
  if types.length > 1 ∨ types.length = 1 ∧ types.head? ≠ some 2 then sortNumbers (types ++ [46])
  else types

/-- `push @{$windows{$window}}, $type`, where the window may be a new one. -/
def pushType (window type : Nat) : List (Nat × List Nat) → List (Nat × List Nat)
  | [] => [(window, [type])]
  | (w, types) :: windows =>
    if w = window then (w, types ++ [type]) :: windows
    else (w, types) :: pushType window type windows

/-- `%windows` -/
def windows (types : List Nat) : List (Nat × List Nat) :=
  types.foldl (fun ws type => pushType (type >>> 8) (type &&& 255) ws) []

/-- `substr($wbm, $type >> 3, 1) = chr(ord(…) | 1 << (7 - ($type & 7)))` -/
def setBit (wbm : Bytes) (type : Nat) : Bytes :=
  wbm.modify (type >>> 3) fun b => b ||| UInt8.ofNat (1 <<< (7 - (type &&& 7)))

/-- `s/\0+$//`: the zeroes at the end, or else those in front of a newline at the end. -/
def trimZeros (wbm : Bytes) : Bytes :=
  match wbm.reverse with
  | 10 :: r => (10 :: r.dropWhile (· = 0)).reverse
  | r => (r.dropWhile (· = 0)).reverse

def windowBitmap (types : List Nat) : Bytes :=
  trimZeros (types.foldl setBit (List.replicate 32 0))

def genTypeBitmaps (types : List Nat) : Bytes :=
  let ws := windows (withRrsig types)
  (sortNumbers (ws.map Prod.fst)).flatMap fun window =>
    let wbm := windowBitmap ((ws.lookup window).getD [])
    UInt8.ofNat window :: UInt8.ofNat wbm.length :: wbm

/-! ## Reading bitmaps -/

/-- Is the bit of a type set? The first bit of an octet is its highest. -/
def hasBit (wbm : Bytes) (type : Nat) : Bool := (wbm.getD (type / 8) 0).toNat.testBit (7 - type % 8)

/-- The windows of a field, each with its bitmap of 1 to 32 octets. A window takes three octets at
least, so that as many rounds as there are octets are enough. -/
def typeBlocks : Nat → Bytes → Option (List (Nat × Bytes))
  | _, [] => some []
  | rounds + 1, window :: len :: rest =>
    if len = 0 ∨ 32 < len ∨ rest.length < len.toNat then none
    else (typeBlocks rounds (rest.drop len.toNat)).map ((window.toNat, rest.take len.toNat) :: ·)
  | _, _ => none

/-- The types that some windows list. -/
def Listed (blocks : List (Nat × Bytes)) (type : Nat) : Prop :=
  ∃ wbm, (type / 256, wbm) ∈ blocks ∧ hasBit wbm (type % 256) = true

/-- **The field is well formed and lists just these types**, and the signature's when the name has
one. -/
def Faithful (types : List Nat) : Prop :=
  ∃ blocks, typeBlocks (genTypeBitmaps types).length (genTypeBitmaps types) = some blocks ∧
    (blocks.map Prod.fst).Pairwise (· < ·) ∧
    (∀ b ∈ blocks, 1 ≤ b.2.length ∧ b.2.length ≤ 32 ∧ b.2.getLast? ≠ some 0) ∧
    ∀ type, Listed blocks type ↔ type ∈ types ∨ type = 46 ∧ types ≠ [] ∧ types ≠ [2]

/-! ## What goes wrong -/

/-- Windows whose texts are in the other order than their numbers. -/
def Misplaced (types : List Nat) : Prop :=
  ∃ s ∈ types, ∃ t ∈ types, s / 256 < t / 256 ∧ ¬ decimal (s / 256) < decimal (t / 256)

/-- The last octet of a window is a newline and the one before it is zero: of the window's last
sixteen types those with the numbers 252 and 254 are there, and no other. -/
def CutShort (types : List Nat) : Prop :=
  ∃ w, ∀ i < 16, 256 * w + 240 + i ∈ types ↔ i = 12 ∨ i = 14

/-! ## Windows -/

/-- The types of a window, by their numbers in it. -/
def inWindow (types : List Nat) (window : Nat) : List Nat :=
  (types.filter fun t => t >>> 8 = window).map (· &&& 255)

section

variable {window type : Nat} {ws : List (Nat × List Nat)}

theorem lookup_pushType (w : Nat) : (pushType window type ws).lookup w =
    if w = window then some ((ws.lookup window).getD [] ++ [type]) else ws.lookup w := by
  induction ws with
  | nil =>
    rw [pushType, List.lookup_cons, List.lookup_nil]
    by_cases h : w = window
    · rw [if_pos h, beq_iff_eq.mpr h]
      rfl
    · rw [if_neg h, beq_eq_false_iff_ne.mpr h]
  | cons entry ws ih =>
    obtain ⟨v, types⟩ := entry
    rw [pushType]
    by_cases hv : v = window
    · subst hv
      rw [if_pos rfl, List.lookup_cons, List.lookup_cons, List.lookup_cons, beq_self_eq_true]
      by_cases h : w = v
      · rw [if_pos h, beq_iff_eq.mpr h]
        rfl
      · rw [if_neg h, beq_eq_false_iff_ne.mpr h]
    · rw [if_neg hv, List.lookup_cons, List.lookup_cons, List.lookup_cons, ih,
        beq_eq_false_iff_ne.mpr (Ne.symm hv)]
      by_cases h : w = window
      · rw [if_pos h, if_pos h, h, beq_eq_false_iff_ne.mpr (Ne.symm hv)]
      · rw [if_neg h, if_neg h]

theorem keys_pushType : (pushType window type ws).map Prod.fst =
    if window ∈ ws.map Prod.fst then ws.map Prod.fst else ws.map Prod.fst ++ [window] := by
  induction ws with
  | nil => rfl
  | cons entry ws ih =>
    obtain ⟨v, types⟩ := entry
    rw [pushType]
    by_cases hv : v = window
    · rw [if_pos hv, List.map_cons, List.map_cons, if_pos (hv ▸ List.mem_cons_self)]
    · rw [if_neg hv, List.map_cons, ih, List.map_cons]
      have other : window ∈ v :: ws.map Prod.fst ↔ window ∈ ws.map Prod.fst :=
        ⟨fun h => (List.mem_cons.mp h).resolve_left (Ne.symm hv), List.mem_cons_of_mem _⟩
      by_cases h : window ∈ ws.map Prod.fst
      · rw [if_pos h, if_pos (other.mpr h)]
      · rw [if_neg h, if_neg (mt other.mp h)]
        rfl

end

/-- **The windows hold the types.** -/
theorem windows_spec (types : List Nat) :
    ((windows types).map Prod.fst).Nodup ∧
      (∀ w, w ∈ (windows types).map Prod.fst ↔ ∃ t ∈ types, t >>> 8 = w) ∧
      ∀ w, ((windows types).lookup w).getD [] = inWindow types w := by
  induction types using List.reverseRecOn with
  | nil =>
    refine ⟨List.nodup_nil, fun w => ?_, fun w => rfl⟩
    exact iff_of_false List.not_mem_nil fun ⟨_, h, _⟩ => absurd h List.not_mem_nil
  | append_singleton types t ih =>
    obtain ⟨nodup, keys, lookups⟩ := ih
    have snoc : windows (types ++ [t]) = pushType (t >>> 8) (t &&& 255) (windows types) :=
      List.foldl_append
    rw [snoc]
    refine ⟨?_, fun w => ?_, fun w => ?_⟩
    · rw [keys_pushType]
      split
      · exact nodup
      · rename_i new
        rw [← List.concat_eq_append]
        exact nodup.concat new
    · have behind : (∃ u ∈ types ++ [t], u >>> 8 = w) ↔ (∃ u ∈ types, u >>> 8 = w) ∨ t >>> 8 = w := by
        simp only [List.mem_append, List.mem_singleton, or_and_right, exists_or, exists_eq_left]
      rw [keys_pushType, behind, ← keys]
      split
      · rename_i old
        exact ⟨.inl, fun h => h.elim id fun h => h ▸ old⟩
      · rw [List.mem_append, List.mem_singleton]
        exact or_congr_right eq_comm
    · rw [lookup_pushType, inWindow, List.filter_append, List.map_append]
      by_cases h : w = t >>> 8
      · rw [if_pos h, h, Option.getD_some, lookups, List.filter_singleton, decide_eq_true rfl]
        rfl
      · rw [if_neg h, lookups, List.filter_singleton, decide_eq_false (Ne.symm h)]
        exact (List.append_nil _).symm

/-! ## Bits -/

theorem newline_bits : ∀ b : UInt8,
    b = 10 ↔ ∀ i < 8, b.toNat.testBit (7 - i) = decide (i = 4 ∨ i = 6) := by
  decide +kernel

theorem zero_bits : ∀ b : UInt8, b = 0 ↔ ∀ i < 8, b.toNat.testBit (7 - i) = false := by
  decide +kernel

theorem or_bit : ∀ b : UInt8, ∀ i < 8, ∀ j < 8,
    (b ||| UInt8.ofNat (1 <<< (7 - j))).toNat.testBit (7 - i) =
      (decide (i = j) || b.toNat.testBit (7 - i)) := by
  decide +kernel

/-- A type of the window sets its own bit. -/
theorem hasBit_setBit {wbm : Bytes} (whole : wbm.length = 32) {i t : Nat} (hi : i < 256) :
    hasBit (setBit wbm t) i = (decide (i = t) || hasBit wbm i) := by
  have hshift : t >>> 3 = t / 8 := Nat.shiftRight_eq_div_pow t 3
  have hmask : t &&& 7 = t % 8 := Nat.and_two_pow_sub_one_eq_mod t 3
  have inside : i / 8 < wbm.length := by omega
  unfold hasBit setBit
  rw [hshift, hmask, List.getD_eq_getElem?_getD, List.getD_eq_getElem?_getD, List.getElem?_modify]
  by_cases place : t / 8 = i / 8
  · rw [List.getElem?_eq_getElem inside, place]
    show ((if i / 8 = i / 8 then _ else _ : UInt8)).toNat.testBit _ = _
    rw [if_pos rfl, or_bit _ _ (Nat.mod_lt _ (by decide)) _ (Nat.mod_lt _ (by decide))]
    congr 1
    rw [decide_eq_decide]
    omega
  · have ne : i ≠ t := fun h => place (h ▸ rfl)
    rw [decide_eq_false ne, Bool.false_or, List.getElem?_eq_getElem inside]
    show ((if t / 8 = i / 8 then _ else _ : UInt8)).toNat.testBit _ = _
    rw [if_neg place]
    rfl

theorem setBit_length (wbm : Bytes) (t : Nat) : (setBit wbm t).length = wbm.length :=
  List.length_modify ..

/-- **All types of a window, and no others, have their bits set.** -/
theorem hasBit_foldl {types : List Nat} {wbm : Bytes} (whole : wbm.length = 32) {i : Nat}
    (hi : i < 256) :
    hasBit (types.foldl setBit wbm) i = (decide (i ∈ types) || hasBit wbm i) := by
  induction types generalizing wbm with
  | nil => rw [List.foldl_nil, decide_eq_false List.not_mem_nil, Bool.false_or]
  | cons t types ih =>
    rw [List.foldl_cons, ih ((setBit_length wbm t).trans whole), hasBit_setBit whole hi,
      ← Bool.or_assoc, ← Bool.decide_or]
    congr 1
    rw [decide_eq_decide, List.mem_cons]
    exact Or.comm

theorem foldl_setBit_length (types : List Nat) (wbm : Bytes) :
    (types.foldl setBit wbm).length = wbm.length := by
  induction types generalizing wbm with
  | nil => rfl
  | cons t types ih => rw [List.foldl_cons, ih, setBit_length]

/-! ## The end of a bitmap -/

/-- What `s/\0+$//` does: it cuts zeroes off the end, or else, when the last octet is a newline, out
of the place in front of it. -/
theorem trimZeros_spec (s : Bytes) :
    (trimZeros s).getLast? ≠ some 0 ∧
      ((∃ k, s = trimZeros s ++ List.replicate k 0 ∧ (k = 0 → ∀ p, s ≠ p ++ [0, 10])) ∨
        ∃ p k, s = p ++ List.replicate (k + 1) 0 ++ [10] ∧ trimZeros s = p ++ [10]) := by
  have zeros (r : Bytes) : ∃ k, r.reverse = (r.dropWhile (· = 0)).reverse ++ List.replicate k 0 := by
    refine ⟨(r.takeWhile (· = 0)).length, ?_⟩
    have all : r.takeWhile (· = 0) = List.replicate (r.takeWhile (· = 0)).length 0 :=
      List.eq_replicate_iff.mpr ⟨rfl, fun b hb => by simpa using List.mem_takeWhile_imp hb⟩
    calc r.reverse = (r.takeWhile (· = 0) ++ r.dropWhile (· = 0)).reverse := by
          rw [List.takeWhile_append_dropWhile]
      _ = _ := by
          rw [List.reverse_append, all, List.reverse_replicate, List.length_replicate]
  have nonzero (r : Bytes) : ((r.dropWhile (· = 0)).reverse).getLast? ≠ some 0 := by
    rw [List.getLast?_reverse]
    intro h
    have := List.head?_dropWhile_not (· = (0 : UInt8)) r
    rw [h] at this
    cases this
  unfold trimZeros
  split
  · rename_i r hr
    rw [List.reverse_cons]
    refine ⟨by rw [List.getLast?_concat]; decide, ?_⟩
    obtain ⟨k, hk⟩ := zeros r
    have hs : s = (r.dropWhile (· = 0)).reverse ++ List.replicate k 0 ++ [10] := by
      rw [← hk, ← List.reverse_cons, ← hr, List.reverse_reverse]
    cases k with
    | zero =>
      rw [List.replicate_zero, List.append_nil] at hs
      refine .inl ⟨0, by rwa [List.replicate_zero, List.append_nil], fun _ p hp => nonzero r ?_⟩
      rw [hs, ← List.singleton_append (l := [10]), ← List.append_assoc] at hp
      rw [List.append_cancel_right hp, List.getLast?_concat]
    | succ k => exact .inr ⟨_, k, hs, rfl⟩
  · rename_i other
    obtain ⟨k, hk⟩ := zeros s.reverse
    rw [List.reverse_reverse] at hk
    refine ⟨nonzero _, .inl ⟨k, hk, fun _ p hp => ?_⟩⟩
    apply other (0 :: p.reverse)
    rw [hp, List.reverse_append]
    rfl

/-- The bitmap of a window before its end is cut. -/
def wholeBitmap (types : List Nat) (window : Nat) : Bytes :=
  (inWindow types window).foldl setBit (List.replicate 32 0)

section

variable {types : List Nat} {w : Nat}

theorem wholeBitmap_length : (wholeBitmap types w).length = 32 :=
  (foldl_setBit_length _ _).trans List.length_replicate

theorem hasBit_wholeBitmap {i : Nat} (hi : i < 256) :
    hasBit (wholeBitmap types w) i = decide (256 * w + i ∈ types) := by
  have clear : hasBit (List.replicate 32 0) i = false := by
    unfold hasBit
    rw [List.getD_eq_getElem?_getD, List.getElem?_replicate, if_pos (by omega)]
    exact Nat.zero_testBit _
  unfold wholeBitmap
  rw [hasBit_foldl List.length_replicate hi, clear, Bool.or_false, decide_eq_decide]
  unfold inWindow
  rw [List.mem_map]
  constructor
  · rintro ⟨t, ht, rfl⟩
    obtain ⟨mem, hw⟩ := List.mem_filter.mp ht
    have hw : t / 256 = w := (Nat.shiftRight_eq_div_pow t 8).symm.trans (of_decide_eq_true hw)
    have hmod : t &&& 255 = t % 256 := Nat.and_two_pow_sub_one_eq_mod t 8
    have same : 256 * w + (t &&& 255) = t := by omega
    rwa [same]
  · intro mem
    have hw : (256 * w + i) >>> 8 = w := by
      rw [Nat.shiftRight_eq_div_pow]
      omega
    have hmask : (256 * w + i) &&& 255 = (256 * w + i) % 256 :=
      Nat.and_two_pow_sub_one_eq_mod (256 * w + i) 8
    have hmod : (256 * w + i) &&& 255 = i := by omega
    exact ⟨_, List.mem_filter.mpr ⟨mem, decide_eq_true hw⟩, hmod⟩

/-- What the last two octets of the bitmap are when its end goes wrong. -/
theorem cut_iff : (∀ i < 16, 256 * w + 240 + i ∈ types ↔ i = 12 ∨ i = 14) ↔
    (wholeBitmap types w).getD 30 0 = 0 ∧ (wholeBitmap types w).getD 31 0 = 10 := by
  have bit (i : Nat) (hi : i < 16) : ((wholeBitmap types w).getD (30 + i / 8) 0).toNat.testBit
      (7 - i % 8) = decide (256 * w + 240 + i ∈ types) := by
    have h : hasBit (wholeBitmap types w) (240 + i) = decide (256 * w + (240 + i) ∈ types) :=
      hasBit_wholeBitmap (by omega)
    have hdiv : (240 + i) / 8 = 30 + i / 8 := by omega
    have hmod : (240 + i) % 8 = i % 8 := by omega
    rwa [hasBit, hdiv, hmod, ← Nat.add_assoc] at h
  rw [zero_bits, newline_bits]
  constructor
  · intro cut
    refine ⟨fun i hi => ?_, fun i hi => ?_⟩
    · have h := bit i (by omega)
      have hdiv : i / 8 = 0 := by omega
      have hmod : i % 8 = i := by omega
      have out : 256 * w + 240 + i ∉ types := fun mem => by
        have := (cut i (by omega)).mp mem
        omega
      rwa [hdiv, hmod, decide_eq_false out] at h
    · have h := bit (8 + i) (by omega)
      have hdiv : (8 + i) / 8 = 1 := by omega
      have hmod : (8 + i) % 8 = i := by omega
      rw [hdiv, hmod] at h
      rw [h, decide_eq_decide, cut (8 + i) (by omega)]
      omega
  · rintro ⟨low, high⟩ i hi
    have h := bit i hi
    by_cases half : i < 8
    · have hdiv : i / 8 = 0 := by omega
      have hmod : i % 8 = i := by omega
      rw [hdiv, hmod, low i half] at h
      have out := of_decide_eq_false h.symm
      exact iff_of_false out (by omega)
    · have hdiv : i / 8 = 1 := by omega
      have hmod : i % 8 = i - 8 := by omega
      rw [hdiv, hmod, high (i - 8) (by omega), decide_eq_decide] at h
      rw [← h]
      omega

/-- A bitmap is cut right, unless a newline at its end stands behind a zero. -/
theorem windowBitmap_spec (some : ∃ t ∈ types, t / 256 = w) :
    1 ≤ (windowBitmap (inWindow types w)).length ∧ (windowBitmap (inWindow types w)).length ≤ 32 ∧
      (windowBitmap (inWindow types w)).getLast? ≠ Option.some 0 ∧
      ((∀ i < 16, 256 * w + 240 + i ∈ types ↔ i = 12 ∨ i = 14) →
        hasBit (windowBitmap (inWindow types w)) 252 = false) ∧
      (¬ (∀ i < 16, 256 * w + 240 + i ∈ types ↔ i = 12 ∨ i = 14) → ∀ i < 256,
        hasBit (windowBitmap (inWindow types w)) i = decide (256 * w + i ∈ types)) := by
  have whole : (wholeBitmap types w).length = 32 := wholeBitmap_length
  have bits (i : Nat) (hi : i < 256) := @hasBit_wholeBitmap types w i hi
  have cut := @cut_iff types w
  obtain ⟨last, ends⟩ := trimZeros_spec (wholeBitmap types w)
  rw [show windowBitmap (inWindow types w) = trimZeros (wholeBitmap types w) from rfl]
  generalize wholeBitmap types w = s at *
  generalize trimZeros s = t at *
  rcases ends with ⟨k, hs, free⟩ | ⟨p, k, hs, ht⟩
  · have hlen := congrArg List.length hs
    rw [List.length_append, List.length_replicate, whole] at hlen
    have same (i : Nat) : hasBit t i = hasBit s i := by
      unfold hasBit
      rw [hs, List.getD_eq_getElem?_getD, List.getD_eq_getElem?_getD, List.getElem?_append]
      split
      · rfl
      · rename_i out
        rw [List.getElem?_eq_none (Nat.le_of_not_lt out), List.getElem?_replicate]
        split <;> rfl
    refine ⟨?_, by omega, last, fun hcut => ?_, fun _ i hi => (same i).trans (bits i hi)⟩
    · obtain ⟨u, hu, hw⟩ := some
      have set : hasBit t (u % 256) = true := by
        rw [same, bits _ (Nat.mod_lt _ (by decide)), decide_eq_true_eq]
        have : 256 * w + u % 256 = u := by omega
        rwa [this]
      cases t with
      | nil =>
        rw [hasBit, List.getD_nil] at set
        exact absurd set (by simp)
      | cons b t => exact Nat.succ_le_succ (Nat.zero_le _)
    · -- a newline at the end would have been cut the other way
      obtain ⟨zero, newline⟩ := cut.mp hcut
      have none_cut : k = 0 := by
        by_contra some_cut
        rw [hs, List.getD_append_right _ _ _ _ (by omega), List.getD_eq_getElem?_getD,
          List.getElem?_replicate, if_pos (by omega)] at newline
        cases newline
      have ending : s.drop 30 = [0, 10] := by
        rw [List.drop_eq_getElem_cons (by omega), List.drop_eq_getElem_cons (by omega),
          List.drop_of_length_le (by omega)]
        rw [List.getD_eq_getElem _ _ (by omega)] at zero newline
        rw [zero, newline]
      exact absurd ((List.take_append_drop 30 s).symm.trans (by rw [ending])) (free none_cut _)
  · have hlen := congrArg List.length hs
    simp only [List.length_append, List.length_replicate, List.length_singleton, whole] at hlen
    have hfront : (p ++ List.replicate (k + 1) 0).length = 31 := by
      rw [List.length_append, List.length_replicate]
      omega
    have newline : s.getD 31 0 = 10 := by
      rw [hs, List.getD_append_right _ _ _ _ hfront.le, hfront]
      rfl
    have zero : s.getD 30 0 = 0 := by
      rw [hs, List.getD_append _ _ _ _ (by omega), List.getD_append_right _ _ _ _ (by omega),
        List.getD_eq_getElem?_getD, List.getElem?_replicate, if_pos (by omega)]
      rfl
    refine ⟨by rw [ht, List.length_append]; exact Nat.le_add_left _ _, ?_, last, fun _ => ?_,
      fun hcut => absurd (cut.mpr ⟨zero, newline⟩) hcut⟩
    · rw [ht, List.length_append, List.length_singleton]
      omega
    · rw [hasBit, ht, List.getD_eq_default _ _ (by
        rw [List.length_append, List.length_singleton]
        omega)]
      exact Nat.zero_testBit _

end

/-! ## Order -/

theorem decimal_inj {m n : Nat} (h : decimal m = decimal n) : m = n := by
  rw [← digitsValue_decimal m, h, digitsValue_decimal]

/-- A number that is not zero does not begin with a zero. -/
theorem decimal_zero_lt {n : Nat} (pos : 0 < n) : decimal 0 < decimal n := by
  have first : ∀ d < 10, 0 < d → digitOctet 0 < digitOctet d := by decide
  have front : ∀ n, 0 < n → ∃ d s, decimal n = d :: s ∧ digitOctet 0 < d := by
    intro n
    induction n using Nat.strongRecOn with
    | ind n ih =>
      intro pos
      rw [decimal_eq]
      split
      · rename_i small
        exact ⟨_, [], rfl, first _ (by omega) (by omega)⟩
      · obtain ⟨d, s, hs, hd⟩ := ih (n / 10) (by omega) (by omega)
        rw [hs]
        exact ⟨d, _, rfl, hd⟩
  obtain ⟨d, s, hs, hd⟩ := front n pos
  rw [hs, decimal_eq, if_pos (by decide)]
  exact List.cons_lt_cons_iff.mpr (.inl hd)

theorem sortNumbers_perm (ns : List Nat) : (sortNumbers ns).Perm ns := List.mergeSort_perm ..

/-- Different numbers are sorted by their texts. -/
theorem sortNumbers_sorted {ns : List Nat} (nodup : ns.Nodup) :
    (sortNumbers ns).Pairwise fun a b => decimal a < decimal b := by
  have trans : ∀ a b c : Nat, decide (decimal a ≤ decimal b) = true →
      decide (decimal b ≤ decimal c) = true → decide (decimal a ≤ decimal c) = true := by
    intro a b c hab hbc
    exact decide_eq_true (le_trans (of_decide_eq_true hab) (of_decide_eq_true hbc))
  have total : ∀ a b : Nat,
      (decide (decimal a ≤ decimal b) || decide (decimal b ≤ decimal a)) = true := by
    intro a b
    rw [Bool.or_eq_true, decide_eq_true_eq, decide_eq_true_eq]
    exact le_total _ _
  have sorted := List.pairwise_mergeSort trans total ns
  refine (sorted.and ((sortNumbers_perm ns).symm.nodup nodup)).imp fun {a b} h => ?_
  exact lt_of_le_of_ne (of_decide_eq_true h.1) (mt decimal_inj h.2)

/-- Sorted by their texts, numbers ascend exactly when the texts compare as the numbers do. -/
theorem ascending_iff {ns : List Nat} (sorted : ns.Pairwise fun a b => decimal a < decimal b) :
    ns.Pairwise (· < ·) ↔ ∀ a ∈ ns, ∀ b ∈ ns, a < b → decimal a < decimal b := by
  constructor
  · intro ascending a ha b hb hab
    have symm : Std.Symm fun a b => (a < b → decimal a < decimal b) ∧ (b < a → decimal b < decimal a) :=
      ⟨fun _ _ => And.symm⟩
    have both : ns.Pairwise fun a b =>
        (a < b → decimal a < decimal b) ∧ (b < a → decimal b < decimal a) :=
      (ascending.and sorted).imp fun h => ⟨fun _ => h.2, fun hba => absurd h.1 (lt_asymm hba)⟩
    exact (both.forall ha hb hab.ne).1 hab
  · intro agree
    refine sorted.imp_of_mem fun {a b} ha hb hab => ?_
    by_contra hnot
    rcases lt_or_eq_of_le (not_lt.mp hnot) with hba | rfl
    · exact absurd (agree b hb a ha hba) (lt_asymm hab)
    · exact lt_irrefl _ hab

/-! ## The types with the signature's -/

theorem mem_withRrsig {types : List Nat} {t : Nat} :
    t ∈ withRrsig types ↔ t ∈ types ∨ t = 46 ∧ types ≠ [] ∧ types ≠ [2] := by
  unfold withRrsig
  split
  · rename_i signed
    have named : types ≠ [] ∧ types ≠ [2] := by
      constructor <;> rintro rfl <;> simp at signed
    rw [(sortNumbers_perm _).mem_iff, List.mem_append, List.mem_singleton]
    exact or_congr_right ⟨fun h => ⟨h, named⟩, And.left⟩
  · rename_i bare
    refine ⟨.inl, fun h => h.elim id fun ⟨_, nonempty, other⟩ => absurd ?_ bare⟩
    match types with
    | [] => exact absurd rfl nonempty
    | [u] => exact .inr ⟨rfl, fun h => other (by rw [Option.some.inj h])⟩
    | _ :: _ :: _ => exact .inl (by simp)

theorem misplaced_withRrsig {types : List Nat} :
    Misplaced (withRrsig types) ↔ Misplaced types := by
  constructor
  · rintro ⟨s, hs, t, ht, hlt, hnot⟩
    rcases mem_withRrsig.mp hs with hs | ⟨rfl, _⟩
    · rcases mem_withRrsig.mp ht with ht | ⟨rfl, _⟩
      · exact ⟨s, hs, t, ht, hlt, hnot⟩
      · exact absurd hlt (by omega)
    · exact absurd (decimal_zero_lt (by omega)) hnot
  · rintro ⟨s, hs, t, ht, h⟩
    exact ⟨s, mem_withRrsig.mpr (.inl hs), t, mem_withRrsig.mpr (.inl ht), h⟩

theorem cutShort_withRrsig {types : List Nat} : CutShort (withRrsig types) ↔ CutShort types := by
  refine exists_congr fun w => forall_congr' fun i => forall_congr' fun hi => ?_
  rw [mem_withRrsig]
  refine iff_congr ⟨fun h => h.resolve_right fun h => ?_, .inl⟩ Iff.rfl
  have := h.1
  omega

/-! ## The field as a whole -/

/-- A field that was put together from windows is read window by window. -/
theorem typeBlocks_flatMap {ws : List Nat} {bitmap : Nat → Bytes} (small : ∀ w ∈ ws, w < 256)
    (fits : ∀ w ∈ ws, 1 ≤ (bitmap w).length ∧ (bitmap w).length ≤ 32) {rounds : Nat}
    (enough : ws.length ≤ rounds) :
    typeBlocks rounds
        (ws.flatMap fun w => UInt8.ofNat w :: UInt8.ofNat (bitmap w).length :: bitmap w) =
      some (ws.map fun w => (w, bitmap w)) := by
  induction ws generalizing rounds with
  | nil => rw [List.flatMap_nil, typeBlocks, List.map_nil]
  | cons w ws ih =>
    obtain ⟨rounds, rfl⟩ := Nat.exists_eq_add_of_le' (Nat.le_trans (Nat.le_add_left 1 _) enough)
    have hw := small w List.mem_cons_self
    obtain ⟨one, most⟩ := fits w List.mem_cons_self
    have hwindow : (UInt8.ofNat w).toNat = w := by
      rw [UInt8.toNat_ofNat']
      omega
    have hlen : (UInt8.ofNat (bitmap w).length).toNat = (bitmap w).length := by
      rw [UInt8.toNat_ofNat']
      omega
    have nonzero : UInt8.ofNat (bitmap w).length ≠ 0 := fun h => by
      rw [h] at hlen
      exact absurd hlen.symm (Nat.pos_iff_ne_zero.mp one)
    have bounded : ¬ 32 < UInt8.ofNat (bitmap w).length := by
      rw [UInt8.lt_iff_toNat_lt, hlen]
      exact Nat.not_lt.mpr most
    rw [List.flatMap_cons, List.cons_append, List.cons_append, typeBlocks, hlen, hwindow,
      if_neg (fun h => h.elim nonzero fun h => h.elim bounded fun h => by
        rw [List.length_append] at h
        omega), List.take_left, List.drop_left,
      ih (fun v hv => small v (List.mem_cons_of_mem _ hv))
        (fun v hv => fits v (List.mem_cons_of_mem _ hv)) (Nat.le_of_succ_le_succ enough)]
    rfl

section

variable {types : List Nat}

/-- The windows of the field, in the order they are printed. -/
def printedWindows (types : List Nat) : List Nat :=
  sortNumbers ((windows (withRrsig types)).map Prod.fst)

theorem mem_printedWindows {w : Nat} :
    w ∈ printedWindows types ↔ ∃ t ∈ withRrsig types, t / 256 = w := by
  unfold printedWindows
  rw [(sortNumbers_perm _).mem_iff, (windows_spec _).2.1]
  simp only [Nat.shiftRight_eq_div_pow, Nat.reducePow]

theorem genTypeBitmaps_eq : genTypeBitmaps types = (printedWindows types).flatMap fun w =>
    UInt8.ofNat w :: UInt8.ofNat (windowBitmap (inWindow (withRrsig types) w)).length ::
      windowBitmap (inWindow (withRrsig types) w) := by
  unfold genTypeBitmaps printedWindows
  simp only [(windows_spec (withRrsig types)).2.2]

theorem typeBlocks_genTypeBitmaps (small : ∀ t ∈ types, t < 65536) :
    typeBlocks (genTypeBitmaps types).length (genTypeBitmaps types) =
      some ((printedWindows types).map fun w =>
        (w, windowBitmap (inWindow (withRrsig types) w))) := by
  have count (ws : List Nat) (bitmap : Nat → Bytes) : ws.length ≤
      (ws.flatMap fun w => UInt8.ofNat w :: UInt8.ofNat (bitmap w).length :: bitmap w).length := by
    induction ws with
    | nil => exact Nat.zero_le _
    | cons w ws ih =>
      rw [List.flatMap_cons, List.length_append, List.length_cons, List.length_cons]
      omega
  rw [genTypeBitmaps_eq]
  refine typeBlocks_flatMap (fun w hw => ?_) (fun w hw => ?_) (count _ _)
  · obtain ⟨t, ht, rfl⟩ := mem_printedWindows.mp hw
    rcases mem_withRrsig.mp ht with ht | ⟨rfl, _⟩
    · have := small t ht
      omega
    · decide
  · obtain ⟨one, most, _⟩ := windowBitmap_spec (mem_printedWindows.mp hw)
    exact ⟨one, most⟩

theorem ascending_printedWindows :
    (printedWindows types).Pairwise (· < ·) ↔ ¬ Misplaced types := by
  unfold printedWindows
  rw [ascending_iff (sortNumbers_sorted (windows_spec _).1), ← misplaced_withRrsig]
  constructor
  · rintro agree ⟨s, hs, t, ht, hlt, hnot⟩
    exact hnot (agree _ (mem_printedWindows.mpr ⟨s, hs, rfl⟩) _
      (mem_printedWindows.mpr ⟨t, ht, rfl⟩) hlt)
  · intro placed a ha b hb hlt
    obtain ⟨s, hs, rfl⟩ := mem_printedWindows.mp ha
    obtain ⟨t, ht, rfl⟩ := mem_printedWindows.mp hb
    by_contra hnot
    exact placed ⟨s, hs, t, ht, hlt, hnot⟩

theorem listed_printedWindows (type : Nat) :
    Listed ((printedWindows types).map fun w =>
      (w, windowBitmap (inWindow (withRrsig types) w))) type ↔
      (∃ t ∈ withRrsig types, t / 256 = type / 256) ∧
        hasBit (windowBitmap (inWindow (withRrsig types) (type / 256))) (type % 256) = true := by
  rw [← mem_printedWindows]
  unfold Listed
  constructor
  · rintro ⟨wbm, hmem, hbit⟩
    obtain ⟨w, hw, heq⟩ := List.mem_map.mp hmem
    obtain ⟨rfl, rfl⟩ := Prod.mk.inj heq
    exact ⟨hw, hbit⟩
  · rintro ⟨hw, hbit⟩
    exact ⟨_, List.mem_map.mpr ⟨_, hw, rfl⟩, hbit⟩

/-- **A bitmap field says what it should** exactly when the texts of its windows compare as the
windows do and no window ends in a newline behind a zero. -/
theorem faithful_iff (small : ∀ t ∈ types, t < 65536) :
    Faithful types ↔ ¬ Misplaced types ∧ ¬ CutShort types := by
  unfold Faithful
  rw [typeBlocks_genTypeBitmaps small]
  simp only [Option.some.injEq, exists_eq_left', List.map_map, Function.comp_def, List.map_id',
    ascending_printedWindows]
  refine and_congr_right fun _ => ?_
  have form : ∀ b ∈ (printedWindows types).map
      fun w => (w, windowBitmap (inWindow (withRrsig types) w)),
      1 ≤ b.2.length ∧ b.2.length ≤ 32 ∧ b.2.getLast? ≠ some 0 := by
    intro b hb
    obtain ⟨w, hw, rfl⟩ := List.mem_map.mp hb
    obtain ⟨one, most, last, _⟩ := windowBitmap_spec (mem_printedWindows.mp hw)
    exact ⟨one, most, last⟩
  rw [← cutShort_withRrsig]
  constructor
  · rintro ⟨_, lists⟩ ⟨w, cut⟩
    have there : 256 * w + 240 + 12 ∈ withRrsig types := (cut 12 (by decide)).mpr (.inl rfl)
    have hw : (256 * w + 240 + 12) / 256 = w := by omega
    have hi : (256 * w + 240 + 12) % 256 = 252 := by omega
    have listed := (lists (256 * w + 240 + 12)).mpr (mem_withRrsig.mp there)
    have bit := ((listed_printedWindows _).mp listed).2
    obtain ⟨_, _, _, lost, _⟩ := windowBitmap_spec ⟨_, there, hw⟩
    rw [hw, hi, lost cut] at bit
    cases bit
  · intro uncut
    refine ⟨form, fun type => ?_⟩
    rw [listed_printedWindows, ← mem_withRrsig]
    have same : 256 * (type / 256) + type % 256 = type := by omega
    constructor
    · rintro ⟨some, bit⟩
      obtain ⟨_, _, _, _, bits⟩ := windowBitmap_spec some
      rw [bits (fun cut => uncut ⟨_, cut⟩) _ (Nat.mod_lt _ (by decide)), decide_eq_true_eq,
        same] at bit
      exact bit
    · intro mem
      obtain ⟨_, _, _, _, bits⟩ := windowBitmap_spec ⟨type, mem, rfl⟩
      refine ⟨⟨type, mem, rfl⟩, ?_⟩
      rw [bits (fun cut => uncut ⟨_, cut⟩) _ (Nat.mod_lt _ (by decide)), same]
      exact decide_eq_true mem

end

/-- The types of a zone's apex: the field lists them, and the signature's. -/
theorem faithful_apex : Faithful [2, 6, 48, 51] := by
  refine (faithful_iff (by decide)).mpr ⟨?_, ?_⟩
  · rintro ⟨s, hs, t, ht, hlt, -⟩
    have hzero : ∀ t ∈ [2, 6, 48, 51], t / 256 = 0 := by decide
    rw [hzero s hs, hzero t ht] at hlt
    exact absurd hlt (Nat.lt_irrefl 0)
  · rintro ⟨w, hcut⟩
    have hbig : ∀ t ∈ [2, 6, 48, 51], t < 240 := by decide
    have hlast := hbig _ ((hcut 12 (by decide)).mpr (.inl rfl))
    omega

/-- The windows 2 and 10 come out in the order of their texts. -/
theorem not_faithful_windows : ¬ Faithful [513, 2561] := by
  rintro ⟨blocks, read, ascending, _⟩
  rw [typeBlocks_genTypeBitmaps (by decide)] at read
  cases read
  rw [List.map_map, Function.comp_def, List.map_id'] at ascending
  refine ascending_printedWindows.mp ascending ⟨513, by decide, 2561, by decide, by decide, ?_⟩
  decide

end TinyDnssec.Sign
