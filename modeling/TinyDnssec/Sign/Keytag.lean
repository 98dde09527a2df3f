import TinyDnssec.Base.Bytes

/-!
# Key tags

A signature names its key by a tag, a checksum of the DNSKEY record. `tinydns-sign` computes it
twice: `gen_pubkey_data` sums over the key with its flags and its algorithm and prints the tag into
the DS pseudo-record, and a key read from a file is summed without them, so that each RRSIG adds
what its own DNSKEY says before it folds the carry back.

Keys are read and signatures made by modules of Perl, and neither is modelled.
-/

namespace TinyDnssec.Sign

open Octets

/-! ## The keys -/

/-- A string of Perl, whose characters may be greater than an octet. -/
abbrev Chars := List Nat

/-- What `get_key_parameters` tells of a key: `to_bin` of the modulus and of the exponent. -/
structure RsaKey where
  n : Bytes
  e : Bytes
  deriving DecidableEq, Repr

/-- `s/^\0+//` -/
def stripZeros (bin : Bytes) : Bytes := bin.dropWhile (· == 0)

/-- `htons` -/
def htons (n : Nat) : Chars := [n >>> 8, n &&& 0xff]

/-- `wireName`, which ends at an empty label; `fuel` is the length of the name. -/
def wireNameGo : Nat → Bytes → Chars
  | 0, _ => [0]
  | fuel + 1, name =>
    match name.takeWhile (· != 46) with
    | [] => [0]
    | label => label.length :: label.map UInt8.toNat ++ wireNameGo fuel (name.drop (label.length + 1))

def wireName (name : Bytes) : Chars := wireNameGo name.length name

/-! ## The two computations -/

/-- `$pubkey`, the public key as a DNSKEY record has it. -/
def RsaKey.pubkey (key : RsaKey) : Chars :=
  let e_bin := stripZeros key.e
  let n_bin := stripZeros key.n
  e_bin.length :: (e_bin ++ n_bin).map UInt8.toNat

/-- The loop over `$pubkey`, from its end; `i` characters are left. -/
def sumPubkey (pubkey : Chars) : Nat → Nat → Nat
  | 0, keytag => keytag
  | i + 1, keytag =>
    sumPubkey pubkey i (keytag + pubkey.getD i 0 * if i &&& 1 = 1 then 1 else 256)

/-- `$keytag += $keytag >> 16; $keytag &= 0xffff` -/
def foldCarry (keytag : Nat) : Nat := (keytag + (keytag >>> 16)) &&& 0xffff

structure PubkeyData where
  keytag : Nat
  pubkey : Chars
  digest : Bytes

section

-- `sha1_hex`
variable (sha1Hex : Chars → Bytes)

/-- `gen_pubkey_data` -/
def genPubkeyData (key : RsaKey) (flags alg : Nat) (dom : Bytes) : PubkeyData :=
  let pubkey := key.pubkey
  let keytag := sumPubkey pubkey pubkey.length (flags + alg + 3 * 256)
  { keytag := if alg > 0 then foldCarry keytag else keytag
    pubkey
    digest := sha1Hex (wireName (lower dom) ++ htons flags ++ [3] ++ [alg] ++ pubkey) }

/-- What `addKey` keeps of a key file in `%main::keys`, under the key data. -/
structure FileKey where
  key : RsaKey
  basetag : Nat

/-- `addKey` -/
def addKey (key : RsaKey) : Chars × FileKey :=
  let data := genPubkeyData sha1Hex key 0 0 []
  (data.pubkey, { key, basetag := data.keytag })

/-- A key of a zone, as `Records::addKey` enters it for a DNSKEY pseudo-record. -/
structure ZoneKey where
  flags : Nat
  alg : Nat
  pubkey : Chars
  key : FileKey

/-- The key tag in the RRSIG records that a key of the zone makes. -/
def ZoneKey.keytag (key : ZoneKey) : Nat :=
  let keytag := key.key.basetag + key.alg + key.flags
  (keytag + (keytag >>> 16)) &&& 0xffff

/-- The algorithms that keys are made for, and signatures with. -/
def Supported (alg : Nat) : Prop := alg = 7 ∨ alg = 8 ∨ alg = 10

instance (alg : Nat) : Decidable (Supported alg) :=
  inferInstanceAs (Decidable (alg = 7 ∨ alg = 8 ∨ alg = 10))

/-- The data of the DNSKEY record that a pseudo-record stands for. -/
def dnskeyRdata (flags proto alg : Nat) (pubkey : Chars) : Chars :=
  htons flags ++ [proto] ++ [alg] ++ pubkey

/-! ## The checksum -/

/-- The sum of a DNSKEY record's data: an octet at an even place counts as the high one of two. -/
def checksumGo : Nat → Nat → Chars → Nat
  | _, ac, [] => ac
  | i, ac, c :: rdata => checksumGo (i + 1) (ac + if i &&& 1 = 1 then c else c <<< 8) rdata

/-- The key tag that the DNSSEC records are defined with. -/
def checksum (rdata : Chars) : Nat :=
  let ac := checksumGo 0 0 rdata
  (ac + ((ac >>> 16) &&& 0xffff)) &&& 0xffff

/-- What the characters of a string weigh, the first one at place `i`. -/
def weight : Nat → Chars → Nat
  | _, [] => 0
  | i, c :: s => c * (if i % 2 = 1 then 1 else 256) + weight (i + 1) s

@[simp] theorem weight_nil (i : Nat) : weight i [] = 0 := rfl

theorem weight_append (s t : Chars) (i : Nat) :
    weight i (s ++ t) = weight i s + weight (i + s.length) t := by
  induction s generalizing i with
  | nil => simp
  | cons c s ih =>
    rw [List.cons_append, weight, weight, ih (i + 1), List.length_cons]
    rw [show i + 1 + s.length = i + (s.length + 1) by omega, Nat.add_assoc]

/-- Only the parity of the first place matters. -/
theorem weight_add_two (s : Chars) (i : Nat) : weight (i + 2) s = weight i s := by
  induction s generalizing i with
  | nil => rfl
  | cons c s ih =>
    rw [weight, weight, show i + 2 + 1 = i + 1 + 2 by omega, ih (i + 1)]
    simp

theorem checksumGo_eq (rdata : Chars) (i ac : Nat) :
    checksumGo i ac rdata = ac + weight i rdata := by
  induction rdata generalizing i ac with
  | nil => rfl
  | cons c rdata ih =>
    rw [checksumGo, weight, ih, Nat.and_one_is_mod, Nat.shiftLeft_eq]
    split <;> omega

/-- The loop has summed what stands behind the first `i` characters. -/
theorem sumPubkey_eq (pubkey : Chars) {i : Nat} (keytag : Nat) (h : i ≤ pubkey.length) :
    sumPubkey pubkey i keytag = keytag + weight 0 (pubkey.take i) := by
  induction i generalizing keytag with
  | zero => rfl
  | succ i ih =>
    have inside : i < pubkey.length := h
    have last : weight 0 (pubkey.take (i + 1)) =
        weight 0 (pubkey.take i) + pubkey.getD i 0 * if i % 2 = 1 then 1 else 256 := by
      rw [List.take_succ_eq_append_getElem inside, weight_append, List.length_take,
        Nat.min_eq_left (by omega), weight, weight_nil]
      simp [List.getD_eq_getElem?_getD, inside]
    rw [sumPubkey, ih _ (by omega), last, Nat.and_one_is_mod]
    omega

theorem sumPubkey_all (pubkey : Chars) (keytag : Nat) :
    sumPubkey pubkey pubkey.length keytag = keytag + weight 0 pubkey := by
  rw [sumPubkey_eq pubkey keytag (Nat.le_refl _), List.take_length]

/-- The head of the record counts as the number it adds to the tag. -/
theorem weight_dnskeyRdata (flags proto alg : Nat) (pubkey : Chars) :
    weight 0 (dnskeyRdata flags proto alg pubkey) =
      flags + alg + proto * 256 + weight 0 pubkey := by
  have low : flags &&& 0xff = flags % 256 := Nat.and_two_pow_sub_one_eq_mod flags 8
  have high : flags >>> 8 = flags / 256 := Nat.shiftRight_eq_div_pow flags 8
  have behind : weight 4 pubkey = weight 0 pubkey :=
    (weight_add_two pubkey 2).trans (weight_add_two pubkey 0)
  simp only [dnskeyRdata, htons, List.cons_append, List.nil_append, weight, low, high, behind]
  norm_num
  omega

/-- A carry of more than sixteen bits leaves the same tag, cut or not. -/
theorem foldCarry_cut (ac : Nat) : foldCarry ac = (ac + ((ac >>> 16) &&& 0xffff)) &&& 0xffff := by
  have cut (k : Nat) : k &&& 0xffff = k % 65536 := Nat.and_two_pow_sub_one_eq_mod k 16
  rw [foldCarry, cut, cut, cut]
  omega

theorem checksum_dnskeyRdata (flags proto alg : Nat) (pubkey : Chars) :
    checksum (dnskeyRdata flags proto alg pubkey) =
      foldCarry (flags + alg + proto * 256 + weight 0 pubkey) := by
  rw [foldCarry_cut, ← weight_dnskeyRdata, checksum, checksumGo_eq, Nat.zero_add]

theorem genPubkeyData_keytag (key : RsaKey) (flags alg : Nat) (dom : Bytes) (h : 0 < alg) :
    (genPubkeyData sha1Hex key flags alg dom).keytag =
      foldCarry (flags + alg + 3 * 256 + weight 0 key.pubkey) := by
  simp only [genPubkeyData, sumPubkey_all, gt_iff_lt, h, if_true]

/-- Without an algorithm nothing is folded, so that the carry is still there. -/
theorem addKey_basetag (key : RsaKey) :
    (addKey sha1Hex key).2.basetag = 3 * 256 + weight 0 key.pubkey := by
  simp [addKey, genPubkeyData, sumPubkey_all]

theorem zoneKey_keytag (key : RsaKey) (flags alg : Nat) (pubkey : Chars) :
    (ZoneKey.mk flags alg pubkey (addKey sha1Hex key).2).keytag =
      foldCarry (flags + alg + 3 * 256 + weight 0 key.pubkey) := by
  have sum : 3 * 256 + weight 0 key.pubkey + alg + flags =
      flags + alg + 3 * 256 + weight 0 key.pubkey := by omega
  simp only [ZoneKey.keytag, addKey_basetag, foldCarry, sum]

/-- One tag names a key: in its RRSIG records, in its DS line and by the checksum of its record. -/
theorem keytag_agrees (key : RsaKey) (flags alg : Nat) (dom : Bytes) (h : Supported alg) :
    (ZoneKey.mk flags alg key.pubkey (addKey sha1Hex key).2).keytag =
        (genPubkeyData sha1Hex key flags alg dom).keytag ∧
      (genPubkeyData sha1Hex key flags alg dom).keytag =
        checksum (dnskeyRdata flags 3 alg (genPubkeyData sha1Hex key flags alg dom).pubkey) := by
  have positive : 0 < alg := by unfold Supported at h; omega
  have generated := genPubkeyData_keytag sha1Hex key flags alg dom positive
  constructor
  · rw [zoneKey_keytag, generated]
  · exact generated.trans (checksum_dnskeyRdata flags 3 alg key.pubkey).symm

end

/-- A modulus that is read with a zero octet in front, and the usual exponent. -/
def smallKey : RsaKey := ⟨[0, 200, 7, 255], [1, 0, 1]⟩

theorem keytag_agrees_smallKey :
    (ZoneKey.mk 257 8 smallKey.pubkey (addKey (fun _ => []) smallKey).2).keytag = 52755 ∧
      checksum (dnskeyRdata 257 3 8 smallKey.pubkey) = 52755 := by
  have agrees := keytag_agrees (fun _ => []) smallKey 257 8 [97] (by decide)
  have tag : (genPubkeyData (fun _ => []) smallKey 257 8 [97]).keytag = 52755 := by decide
  exact ⟨agrees.1.trans tag, agrees.2.symm.trans tag⟩

end TinyDnssec.Sign
