import TinyDnssec.Data.Database

/-!
# TLSA lines

A `_` line has fields for the usage and the selector of its record, and for the host, the port and
the protocol that its owner is put together from. `compileTlsa` reads usage and selector and then
overwrites both; a host that begins with `_` it takes for the whole owner; and it decides by the
first octet of the host even if the host is empty, where that octet is what an earlier line left.

`StoresGiven` is what the line is for, and `AsGiven` says exactly which lines it happens for.
-/

namespace TinyDnssec.Data

open Octets Loop

/-! ## What a line is for -/

/-- The owner of a TLSA record, as text. -/
def tlsaGivenOwner (fqdn x port proto : Bytes) : Bytes :=
  if x = [] ∧ port = [] ∧ proto = [] then ascii "_25._tcp.mail." ++ fqdn
  else if x.head? = some 95 then x ++ 46 :: fqdn
  else ascii "_" ++ (if port = [] then ascii "25" else port) ++ ascii "._" ++
    (if proto = [] then ascii "tcp" else proto) ++ 46 :: (x ++ 46 :: fqdn)

def tlsaUsage (u : Bytes) : UInt8 := UInt8.ofNat (scanUlongOr 3 u)

def tlsaSelector (s : Bytes) : UInt8 := UInt8.ofNat (scanUlongOr 0 s)

def tlsaType (fingerprint : Bytes) : UInt8 :=
  if fingerprint.length = 64 then 1 else if fingerprint.length = 128 then 2 else 0

/-- The octets of a fingerprint. -/
def tlsaDigest (fingerprint : Bytes) : Option Bytes :=
  hexPairs (fingerprint.length / 2) fingerprint

/-- One TLSA record is stored, with what the fields give. -/
def StoresGiven (f : Nat → Bytes) (stored : Except Die (List CdbRecord)) : Prop :=
  ∃ owner digest, dnsDomainFromdot (tlsaGivenOwner (f 0) (f 4) (f 5) (f 6)) = some owner ∧
    tlsaDigest (f 3) = some digest ∧
    stored = .ok [rr owner dnsTTlsa (scanUlongOr ttlPositive (f 7)) (ttdparse (f 8))
      (locparse (f 9)) ([tlsaUsage (f 1), tlsaSelector (f 2), tlsaType (f 3)] ++ digest)]

/-- What stands in front of the host in an owner that is put together. -/
def tlsaService (port proto : Bytes) : Bytes :=
  ascii "_" ++ (if port = [] then ascii "25" else port) ++ ascii "._" ++
    (if proto = [] then ascii "tcp" else proto)

/-- The owner is put together as it is given. Where the first octet is an underscore, the host has to
be there and to be the whole name; where it is a dot, one dot is left out, and it must not be one
that a backslash in front of it makes part of a label. -/
def OwnerAsGiven (stale : UInt8) (fqdn x port proto : Bytes) : Prop :=
  x = [] ∧ port = [] ∧ proto = [] ∨
  ¬ (x = [] ∧ port = [] ∧ proto = []) ∧
    (x.headD stale = 95 → x ≠ [] ∧ pending x = false ∧ dnsDomainFromdot fqdn = some []) ∧
    (x.headD stale = 46 → pending (tlsaService port proto) = false ∨
      ∀ t ∈ (unescape ((x ++ 46 :: fqdn).drop 1)).head?, t = (false, 46))

/-- The lines that are stored as they are given. -/
structure AsGiven (stale : UInt8) (f : Nat → Bytes) : Prop where
  usage : tlsaUsage (f 1) = 3
  selector : tlsaSelector (f 2) = 0
  fqdn : (dnsDomainFromdot (f 0)).isSome
  owner : (dnsDomainFromdot (tlsaGivenOwner (f 0) (f 4) (f 5) (f 6))).isSome
  place : OwnerAsGiven stale (f 0) (f 4) (f 5) (f 6)

/-! ## Names put together as text -/

/-- The loop of `dns_domain_fromdot` over the front of a text: the label and the name so far. -/
def fromdotRun : List (Bool × UInt8) → Label → Name → Option (Label × Name)
  | [], label, name => some (label, name)
  | (escaped, ch) :: buf, label, name =>
    if ch = 46 ∧ escaped = false then do
      let name ← flushLabel label name
      fromdotRun buf [] name
    else if label.length ≥ 63 then none
    else fromdotRun buf (label ++ [ch]) name

theorem fromdotGo_append (front back : List (Bool × UInt8)) (label : Label) (name : Name) :
    fromdotGo (front ++ back) label name =
      (fromdotRun front label name).bind fun s => fromdotGo back s.1 s.2 := by
  fun_induction fromdotRun front label name with
  | case1 label name => rfl
  | case2 escaped ch buf label name dot ih =>
    rw [List.cons_append, fromdotGo, if_pos dot]
    cases flushLabel label name with
    | none => rfl
    | some flushed => exact ih flushed
  | case3 escaped ch buf label name dot long =>
    rw [List.cons_append, fromdotGo, if_neg dot, if_pos long]
    rfl
  | case4 escaped ch buf label name dot long ih =>
    rw [List.cons_append, fromdotGo, if_neg dot, if_neg long, ih]

theorem fromdotGo_sep (tokens : List (Bool × UInt8)) (label : Label) (name : Name) :
    fromdotGo ((false, 46) :: tokens) label name =
      (flushLabel label name).bind fun flushed => fromdotGo tokens [] flushed := by
  rw [fromdotGo, if_pos ⟨rfl, rfl⟩]
  rfl

theorem fromdotGo_letter {escaped : Bool} {ch : UInt8} (letter : ¬ (ch = 46 ∧ escaped = false))
    (tokens : List (Bool × UInt8)) (label : Label) (name : Name) :
    fromdotGo ((escaped, ch) :: tokens) label name =
      if label.length ≥ 63 then none else fromdotGo tokens (label ++ [ch]) name := by
  rw [fromdotGo, if_neg letter]

/-- A dot where no label has begun does nothing. -/
theorem fromdotGo_dot (tokens : List (Bool × UInt8)) (name : Name) :
    fromdotGo ((false, 46) :: tokens) [] name = fromdotGo tokens [] name :=
  fromdotGo_sep tokens [] name

/-- The labels that are there stay in front. -/
theorem fromdotGo_prefix {tokens : List (Bool × UInt8)} {label : Label} (front : Name)
    {name out : Name} (h : fromdotGo tokens label (front ++ name) = some out) :
    ∃ rest, fromdotGo tokens label name = some rest ∧ out = front ++ rest := by
  induction front generalizing out with
  | nil => exact ⟨out, h, rfl⟩
  | cons first front ih =>
    obtain ⟨rest, hrest, rfl⟩ := fromdotGo_front h
    obtain ⟨rest', hrest', rfl⟩ := ih hrest
    exact ⟨rest', hrest', rfl⟩

theorem flushed_eq {label : Label} {name flushed : Name} (begun : label ≠ [])
    (h : flushLabel label name = some flushed) : flushed = name ++ [label] := by
  unfold flushLabel at h
  rw [if_neg begun] at h
  split at h
  · cases h
  · cases h
    rfl

/-- A label that has begun is the next one, whatever it still grows by. -/
theorem fromdotGo_begun {tokens : List (Bool × UInt8)} {label : Label} {name out : Name}
    (begun : label ≠ []) (h : fromdotGo tokens label name = some out) :
    ∃ more rest, out = name ++ (label ++ more) :: rest := by
  induction tokens generalizing label with
  | nil =>
    rw [fromdotGo] at h
    obtain ⟨flushed, hflush, h⟩ := Option.bind_eq_some_iff.mp h
    split at h
    · cases h
    · cases h
      exact ⟨[], [], by rw [flushed_eq begun hflush, List.append_nil]⟩
  | cons token tokens ih =>
    obtain ⟨escaped, ch⟩ := token
    rw [fromdotGo] at h
    split at h
    · obtain ⟨flushed, hflush, h⟩ := Option.bind_eq_some_iff.mp h
      rw [flushed_eq begun hflush, ← List.append_nil (name ++ [label])] at h
      obtain ⟨rest, -, rfl⟩ := fromdotGo_prefix (name ++ [label]) h
      exact ⟨[], rest, by rw [List.append_nil, List.append_assoc, List.singleton_append]⟩
    · split at h
      · cases h
      · have longer : label ++ [ch] ≠ [] := List.append_ne_nil_of_right_ne_nil _ (List.cons_ne_nil _ _)
        obtain ⟨more, rest, rfl⟩ := ih longer h
        exact ⟨ch :: more, rest, by simp⟩

theorem lowerName_append (a b : Name) : lowerName (a ++ b) = lowerName a ++ lowerName b :=
  List.map_append

/-- The octets behind a dot are read with the label that stands in front of it. -/
theorem fromdot_dot (s rest : Bytes) :
    dnsDomainFromdot (s ++ 46 :: rest) = (fromdotRun (unescape s) [] []).bind fun st =>
      fromdotGo ((pending s, 46) :: unescape rest) st.1 st.2 := by
  rw [dnsDomainFromdot, unescape_dot, fromdotGo_append]

/-- A dot in front of a dot, or at the end, does nothing. -/
theorem fromdotGo_break {tokens : List (Bool × UInt8)} (breaks : ∀ t ∈ tokens.head?, t = (false, 46))
    (label : Label) (name : Name) :
    fromdotGo ((false, 46) :: tokens) label name = fromdotGo tokens label name := by
  rw [fromdotGo_sep]
  cases tokens with
  | nil => rfl
  | cons token tokens =>
    cases breaks token rfl
    rw [fromdotGo_sep]
    exact congrArg _ (funext fun flushed => fromdotGo_dot tokens flushed)

theorem escaped_dot : ¬ ((46 : UInt8) = 46 ∧ true = false) := by decide

/-- One dot does for two. -/
theorem fromdot_one_dot {s rest : Bytes}
    (h : pending s = false ∨ ∀ t ∈ (unescape rest).head?, t = (false, 46)) :
    dnsDomainFromdot (s ++ 46 :: rest) = dnsDomainFromdot (s ++ 46 :: 46 :: rest) := by
  rw [fromdot_dot, fromdot_dot, unescape_plain (by decide)]
  refine congrArg _ (funext fun st => ?_)
  cases escaped : pending s with
  | false =>
    rw [fromdotGo_sep, fromdotGo_sep]
    exact congrArg _ (funext fun flushed => (fromdotGo_dot _ flushed).symm)
  | true =>
    rcases h with bare | breaks
    · cases escaped.symm.trans bare
    · rw [fromdotGo_letter escaped_dot, fromdotGo_letter escaped_dot, fromdotGo_break breaks]

/-- A name that goes on with a label that has begun, and one that ends it there, are two names. -/
theorem lowerName_longer {name rest rest' : Name} {label more : Label} (some : more ≠ [])
    (same : lowerName (name ++ (label ++ more) :: rest) = lowerName (name ++ label :: rest')) :
    False := by
  rw [lowerName_append, lowerName_append] at same
  have labels := (List.cons.inj (List.append_cancel_left same)).1
  have lengths := congrArg List.length labels
  have positive := List.length_pos_iff.mpr some
  simp only [lower_length, List.length_append] at lengths
  omega

/-- Where one dot does for two, no backslash takes the one that is there. -/
theorem one_dot_of_fromdot {s rest : Bytes} {d owner : Name}
    (hd : dnsDomainFromdot (s ++ 46 :: rest) = some d)
    (howner : dnsDomainFromdot (s ++ 46 :: 46 :: rest) = some owner)
    (same : lowerName d = lowerName owner) :
    pending s = false ∨ ∀ t ∈ (unescape rest).head?, t = (false, 46) := by
  cases escaped : pending s with
  | false => exact .inl rfl
  | true =>
    right
    rintro ⟨e, c⟩ first
    by_contra other
    obtain ⟨tokens, htokens⟩ : ∃ tokens, unescape rest = (e, c) :: tokens := by
      cases htokens : unescape rest with
      | nil => rw [htokens] at first; cases first
      | cons t tokens => rw [htokens] at first; cases first; exact ⟨tokens, rfl⟩
    have letter : ¬ (c = 46 ∧ e = false) := fun dot => other (by rw [dot.1, dot.2])
    rw [fromdot_dot, escaped, htokens] at hd
    rw [fromdot_dot, escaped, unescape_plain (by decide), htokens] at howner
    obtain ⟨⟨label, name⟩, hrun, hd⟩ := Option.bind_eq_some_iff.mp hd
    obtain ⟨⟨_, _⟩, hrun', howner⟩ := Option.bind_eq_some_iff.mp howner
    cases hrun.symm.trans hrun'
    have begun : label ++ [46] ≠ [] := List.append_ne_nil_of_right_ne_nil _ (List.cons_ne_nil _ _)
    rw [fromdotGo_letter escaped_dot] at hd howner
    split at hd
    · cases hd
    · rename_i short
      rw [if_neg short, fromdotGo_sep] at howner
      obtain ⟨flushed, hflush, howner⟩ := Option.bind_eq_some_iff.mp howner
      rw [flushed_eq begun hflush, ← List.append_nil (name ++ [label ++ [46]])] at howner
      obtain ⟨after, -, rfl⟩ := fromdotGo_prefix _ howner
      rw [fromdotGo_letter letter] at hd
      split at hd
      · cases hd
      · have longer : label ++ [46] ++ [c] ≠ [] :=
          List.append_ne_nil_of_right_ne_nil _ (List.cons_ne_nil _ _)
        obtain ⟨more, after', rfl⟩ := fromdotGo_begun longer hd
        rw [List.append_assoc (label ++ [46]), List.append_assoc name] at same
        exact lowerName_longer (List.cons_ne_nil _ _) same

/-- A host with the domain behind it is the host alone only in the root domain. -/
theorem root_of_fromdot {x fqdn : Bytes} {d owner : Name} (hd : dnsDomainFromdot x = some d)
    (howner : dnsDomainFromdot (x ++ 46 :: fqdn) = some owner)
    (same : lowerName d = lowerName owner) :
    pending x = false ∧ dnsDomainFromdot fqdn = some [] := by
  rw [dnsDomainFromdot, ← List.append_nil (unescape x), fromdotGo_append] at hd
  rw [fromdot_dot] at howner
  obtain ⟨⟨label, name⟩, hrun, hd⟩ := Option.bind_eq_some_iff.mp hd
  obtain ⟨⟨_, _⟩, hrun', howner⟩ := Option.bind_eq_some_iff.mp howner
  cases hrun.symm.trans hrun'
  rw [fromdotGo] at hd
  obtain ⟨flushed, hflush, hd⟩ := Option.bind_eq_some_iff.mp hd
  split at hd
  · cases hd
  · cases hd
    cases escaped : pending x with
    | false =>
      rw [escaped, fromdotGo_sep] at howner
      obtain ⟨_, hflush', howner⟩ := Option.bind_eq_some_iff.mp howner
      cases hflush.symm.trans hflush'
      rw [← List.append_nil d] at howner
      obtain ⟨rest, hrest, rfl⟩ := fromdotGo_prefix d howner
      have none : rest = [] := by
        have lengths := congrArg List.length same
        rw [lowerName_append] at lengths
        simpa [lowerName] using lengths
      exact ⟨rfl, none ▸ hrest⟩
    | true =>
      rw [escaped, fromdotGo_letter escaped_dot] at howner
      split at howner
      · cases howner
      · have begun : label ++ [46] ≠ [] :=
          List.append_ne_nil_of_right_ne_nil _ (List.cons_ne_nil _ _)
        obtain ⟨more, rest, rfl⟩ := fromdotGo_begun begun howner
        exfalso
        by_cases empty : label = []
        · rw [flushLabel, if_pos empty] at hflush
          cases hflush
          have lengths := congrArg List.length same
          simp [lowerName] at lengths
        · rw [flushed_eq empty hflush, List.append_assoc label] at same
          exact lowerName_longer (List.cons_ne_nil _ _) same.symm

/-- In the root domain the host is its whole name. -/
theorem fromdot_of_root {x fqdn : Bytes} {owner : Name} (bare : pending x = false)
    (root : dnsDomainFromdot fqdn = some [])
    (howner : dnsDomainFromdot (x ++ 46 :: fqdn) = some owner) :
    dnsDomainFromdot x = some owner := by
  have short := (dnsDomainFromdot_valid howner).short
  rw [fromdot_dot, bare] at howner
  obtain ⟨⟨label, name⟩, hrun, howner⟩ := Option.bind_eq_some_iff.mp howner
  rw [fromdotGo_sep] at howner
  obtain ⟨flushed, hflush, howner⟩ := Option.bind_eq_some_iff.mp howner
  rw [← List.append_nil flushed] at howner
  obtain ⟨rest, hrest, rfl⟩ := fromdotGo_prefix flushed howner
  cases hrest.symm.trans root
  rw [List.append_nil] at short ⊢
  rw [dnsDomainFromdot, ← List.append_nil (unescape x), fromdotGo_append, hrun]
  have ends : fromdotGo [] label name = some flushed := by
    rw [fromdotGo]
    exact Option.bind_eq_some_iff.mpr ⟨flushed, hflush, if_neg (by omega)⟩
  exact ends

/-! ## Owners and records -/

section

variable {stale : UInt8} {fqdn x port proto : Bytes}

/-- The text of a `_` line's owner, by the first octet of the host. -/
theorem tlsaOwner_eq (env : Env) (given : ¬ (x = [] ∧ port = [] ∧ proto = [])) :
    tlsaOwner env fqdn x port proto =
      if x.headD env.stale = 95 then x
      else if x.headD env.stale = 46 then tlsaService port proto ++ (x ++ 46 :: fqdn)
      else tlsaService port proto ++ 46 :: (x ++ 46 :: fqdn) := by
  unfold tlsaOwner tlsaService
  rw [if_neg given]
  by_cases underscore : x.headD env.stale = 95
  · rw [if_pos underscore, if_neg (not_not_intro underscore)]
  · by_cases dot : x.headD env.stale = 46
    · rw [if_pos underscore, if_neg underscore, if_pos dot, if_pos dot]
      simp [ascii]
    · rw [if_pos underscore, if_neg underscore, if_neg dot, if_neg dot]
      simp [ascii]

theorem tlsaGivenOwner_eq (given : ¬ (x = [] ∧ port = [] ∧ proto = [])) :
    tlsaGivenOwner fqdn x port proto =
      if x.head? = some 95 then x ++ 46 :: fqdn
      else tlsaService port proto ++ 46 :: (x ++ 46 :: fqdn) := by
  unfold tlsaGivenOwner tlsaService
  rw [if_neg given]

/-- Behind a first octet that is a dot comes the rest of the host and the domain. -/
theorem host_of_dot (fqdn : Bytes) (dot : x.headD stale = 46) :
    x.head? ≠ some 95 ∧ x ++ 46 :: fqdn = 46 :: (x ++ 46 :: fqdn).drop 1 := by
  cases x with
  | nil => exact ⟨nofun, rfl⟩
  | cons c x =>
    rw [List.headD_cons] at dot
    subst dot
    refine ⟨fun h => ?_, rfl⟩
    cases h

/-- A text that begins with an underscore is no name of the root. -/
theorem ne_root_of_underscore {s : Bytes} {owner : Name}
    (h : dnsDomainFromdot (95 :: s) = some owner) : owner ≠ [] := by
  rw [dnsDomainFromdot, unescape_plain (by decide), fromdotGo_letter (by decide)] at h
  split at h
  · cases h
  · obtain ⟨more, rest, rfl⟩ := fromdotGo_begun (List.cons_ne_nil _ _) h
    exact List.append_ne_nil_of_right_ne_nil _ (List.cons_ne_nil _ _)

/-- The owner of the record that is stored is the one that is given, under the condition. -/
theorem tlsaOwner_given (env : Env) {owner : Name} (h : OwnerAsGiven env.stale fqdn x port proto)
    (howner : dnsDomainFromdot (tlsaGivenOwner fqdn x port proto) = some owner) :
    dnsDomainFromdot (tlsaOwner env fqdn x port proto) = some owner := by
  rcases h with empty | ⟨given, underscore, dot⟩
  · rw [tlsaGivenOwner, if_pos empty] at howner
    rw [tlsaOwner, if_pos empty]
    exact howner
  · rw [tlsaGivenOwner_eq given] at howner
    rw [tlsaOwner_eq env given]
    split
    · rename_i first
      obtain ⟨there, bare, root⟩ := underscore first
      have head : x.head? = some 95 := by
        cases x with
        | nil => exact absurd rfl there
        | cons c x => exact congrArg some first
      rw [if_pos head] at howner
      exact fromdot_of_root bare root howner
    · split
      · rename_i first
        obtain ⟨other, host⟩ := host_of_dot fqdn first
        rw [if_neg other, host] at howner
        rw [host, fromdot_one_dot (dot first)]
        exact howner
      · rename_i first _
        have other : x.head? ≠ some 95 := by
          cases x with
          | nil => exact nofun
          | cons c x => exact fun h => first (Option.some.inj h)
        rw [if_neg other] at howner
        exact howner

/-- And only under it: two spellings of the name do not come about any other way. -/
theorem ownerAsGiven_of_same (env : Env) {d owner : Name}
    (hd : dnsDomainFromdot (tlsaOwner env fqdn x port proto) = some d)
    (howner : dnsDomainFromdot (tlsaGivenOwner fqdn x port proto) = some owner)
    (same : lowerName d = lowerName owner) : OwnerAsGiven env.stale fqdn x port proto := by
  by_cases given : x = [] ∧ port = [] ∧ proto = []
  · exact .inl given
  · rw [tlsaGivenOwner_eq given] at howner
    rw [tlsaOwner_eq env given] at hd
    refine .inr ⟨given, fun first => ?_, fun first => ?_⟩
    · rw [if_pos first] at hd
      cases x with
      | nil =>
        cases hd
        rw [if_neg nofun] at howner
        have other := ne_root_of_underscore howner
        cases owner with
        | nil => exact absurd rfl other
        | cons l owner => cases same
      | cons c x =>
        have head : (c :: x).head? = some 95 := congrArg some first
        rw [if_pos head] at howner
        exact ⟨List.cons_ne_nil c x, root_of_fromdot hd howner same⟩
    · obtain ⟨other, host⟩ := host_of_dot fqdn first
      rw [if_neg (by rw [first]; decide), if_pos first, host] at hd
      rw [if_neg other, host] at howner
      exact one_dot_of_fromdot hd howner same

end

theorem wildcardBase_eq_some {owner base : Name} (h : wildcardBase owner = some base) :
    owner = [42] :: base := by
  unfold wildcardBase at h
  split at h
  · cases h
    rfl
  · cases h

/-- Records of one type, time and place are the same only for one name and the same data. -/
theorem rr_inj {a b : Name} (ha : Valid a) (hb : Valid b) {t₀ t₁ : UInt8} {ttl : Nat}
    {ttd loc x y : Bytes} (h : rr a [t₀, t₁] ttl ttd loc x = rr b [t₀, t₁] ttl ttd loc y) :
    lowerName a = lowerName b ∧ x = y := by
  have data := congrArg CdbRecord.data h
  rw [rr_data, rr_data] at data
  obtain ⟨mark, rest⟩ := List.cons.inj (List.cons.inj (List.cons.inj data).2).2
  refine ⟨?_, List.append_cancel_left (List.append_cancel_left (List.append_cancel_left rest))⟩
  have key := congrArg CdbRecord.key h
  unfold rr rrFinish at key
  unfold locationMark at mark
  cases hbaseA : wildcardBase a with
  | none =>
    cases hbaseB : wildcardBase b with
    | none =>
      simp only [hbaseA, hbaseB, if_true] at key
      rw [lower_wire ha.labels, lower_wire hb.labels] at key
      exact (wire_inj ha.lower hb.lower).mp key
    | some baseB =>
      exfalso
      rw [hbaseA, hbaseB, Option.isSome_none, Option.isSome_some] at mark
      revert mark
      split <;> decide
  | some baseA =>
    cases hbaseB : wildcardBase b with
    | none =>
      exfalso
      rw [hbaseA, hbaseB, Option.isSome_none, Option.isSome_some] at mark
      revert mark
      split <;> decide
    | some baseB =>
      have validA := wildcardBase_valid ha hbaseA
      have validB := wildcardBase_valid hb hbaseB
      simp only [hbaseA, hbaseB, if_true] at key
      rw [lower_wire validA.labels, lower_wire validB.labels] at key
      rw [wildcardBase_eq_some hbaseA, wildcardBase_eq_some hbaseB, lowerName_cons, lowerName_cons,
        (wire_inj validA.lower validB.lower).mp key]

/-! ## Fingerprints -/

theorem hexDigit_lower : ∀ c v : UInt8, fromhex c = some v → hexDigit (lowerByte c) = v := by
  decide +kernel

/-- A fingerprint of hexadecimal digits is decoded in place. -/
theorem hexparse_digits (stale : UInt8) {fingerprint digest : Bytes}
    (even : fingerprint.length % 2 = 0) (h : tlsaDigest fingerprint = some digest) :
    hexparse stale (lower fingerprint) = digest := by
  unfold tlsaDigest at h
  match fingerprint with
  | [] =>
    cases h
    rfl
  | [_] => cases even
  | c₁ :: c₂ :: rest =>
    have half : (c₁ :: c₂ :: rest).length / 2 = rest.length / 2 + 1 := by
      simp only [List.length_cons]
      omega
    rw [half, hexPairs] at h
    obtain ⟨hi, hhi, h⟩ := Option.bind_eq_some_iff.mp h
    obtain ⟨lo, hlo, h⟩ := Option.bind_eq_some_iff.mp h
    obtain ⟨behind, hbehind, h⟩ := Option.bind_eq_some_iff.mp h
    cases h
    have rest_even : rest.length % 2 = 0 := by
      simp only [List.length_cons] at even
      omega
    rw [lower_cons, lower_cons, hexparse, hexDigit_lower c₁ hi hhi, hexDigit_lower c₂ lo hlo,
      hexparse_digits stale rest_even hbehind]

theorem tlsaDigest_isSome {fingerprint : Bytes} (even : fingerprint.length % 2 = 0)
    (digits : ∀ c ∈ fingerprint, (fromhex c).isSome) : (tlsaDigest fingerprint).isSome := by
  unfold tlsaDigest
  match fingerprint with
  | [] => rfl
  | [_] => cases even
  | c₁ :: c₂ :: rest =>
    have half : (c₁ :: c₂ :: rest).length / 2 = rest.length / 2 + 1 := by
      simp only [List.length_cons]
      omega
    have rest_even : rest.length % 2 = 0 := by
      simp only [List.length_cons] at even
      omega
    obtain ⟨hi, hhi⟩ := Option.isSome_iff_exists.mp (digits c₁ List.mem_cons_self)
    obtain ⟨lo, hlo⟩ := Option.isSome_iff_exists.mp
      (digits c₂ (List.mem_cons_of_mem _ List.mem_cons_self))
    obtain ⟨behind, hbehind⟩ := Option.isSome_iff_exists.mp (tlsaDigest_isSome rest_even fun c hc =>
      digits c (List.mem_cons_of_mem _ (List.mem_cons_of_mem _ hc)))
    unfold tlsaDigest at hbehind
    rw [half, hexPairs, hhi, hlo, hbehind]
    rfl

/-! ## The lines that are stored as they are given -/

theorem compileLine_tlsa (env : Env) {line rest : Bytes} (isTlsa : trimLine line = 95 :: rest) :
    compileLine env line = compileTlsa env (fields rest) := by
  rw [compileLine, isTlsa]
  rfl

/-- What a `_` line stores when it stores anything. -/
theorem compileTlsa_eq_ok {env : Env} {f : Nat → Bytes} {records : List CdbRecord} :
    compileTlsa env f = .ok records ↔
      (dnsDomainFromdot (f 0)).isSome ∧ ∃ d,
        dnsDomainFromdot (tlsaOwner env (f 0) (f 4) (f 5) (f 6)) = some d ∧
        records = [rr d dnsTTlsa (scanUlongOr ttlPositive (f 7)) (ttdparse (f 8)) (locparse (f 9))
          ([3, 0, tlsaType (f 3)] ++ hexparse env.stale (lower (f 3)))] := by
  simp only [compileTlsa, bind_eq_ok, fromdot_eq_ok, Option.isSome_iff_exists, Except.ok.injEq]
  constructor
  · rintro ⟨fqdn, hfqdn, d, hd, records⟩
    exact ⟨⟨fqdn, hfqdn⟩, d, hd, records.symm⟩
  · rintro ⟨⟨fqdn, hfqdn⟩, d, hd, rfl⟩
    exact ⟨fqdn, hfqdn, d, hd, rfl⟩

/-- **A TLSA record is stored as it is given** when usage and selector are the ones that all records
get, and the owner is put together as it should be; and then only. -/
theorem storesGiven_iff (env : Env) {line rest : Bytes} (isTlsa : trimLine line = 95 :: rest)
    (even : (fields rest 3).length % 2 = 0)
    (digits : ∀ c ∈ fields rest 3, (fromhex c).isSome) :
    StoresGiven (fields rest) (compileLine env line) ↔ AsGiven env.stale (fields rest) := by
  rw [compileLine_tlsa env isTlsa]
  generalize fields rest = f at even digits ⊢
  obtain ⟨digest, hdigest⟩ := Option.isSome_iff_exists.mp (tlsaDigest_isSome even digits)
  have decoded := hexparse_digits env.stale even hdigest
  constructor
  · rintro ⟨owner, _, howner, -, stored⟩
    obtain ⟨fqdn, d, hd, records⟩ := compileTlsa_eq_ok.mp stored
    obtain ⟨same, data⟩ := rr_inj (dnsDomainFromdot_valid howner) (dnsDomainFromdot_valid hd)
      (List.cons.inj records).1
    obtain ⟨usage, data⟩ := List.cons.inj data
    obtain ⟨selector, -⟩ := List.cons.inj data
    exact ⟨usage, selector, fqdn, by rw [howner]; rfl, ownerAsGiven_of_same env hd howner same.symm⟩
  · intro given
    obtain ⟨owner, howner⟩ := Option.isSome_iff_exists.mp given.owner
    refine ⟨owner, digest, howner, hdigest, compileTlsa_eq_ok.mpr ⟨given.fqdn, owner, ?_, ?_⟩⟩
    · exact tlsaOwner_given env given.place howner
    · rw [given.usage, given.selector, decoded]

/-- Usage 2 and selector 1, of the domain `a`. -/
def usageTwo : Bytes := ascii "a:2:1:00ff"

theorem storesGiven_overwritten :
    ¬ ∀ (env : Env) (line rest : Bytes), trimLine line = 95 :: rest →
      (fields rest 3).length % 2 = 0 → (∀ c ∈ fields rest 3, (fromhex c).isSome) →
      StoresGiven (fields rest) (compileLine env line) := by
  intro all
  have isTlsa : trimLine (95 :: usageTwo) = 95 :: usageTwo := by decide +kernel
  obtain ⟨owner, digest, howner, -, stored⟩ :=
    all ⟨0, 0⟩ (95 :: usageTwo) usageTwo isTlsa (by decide +kernel) (by decide +kernel)
  rw [compileLine_tlsa _ isTlsa] at stored
  obtain ⟨-, d, hd, records⟩ := compileTlsa_eq_ok.mp stored
  obtain ⟨-, data⟩ := rr_inj (dnsDomainFromdot_valid howner) (dnsDomainFromdot_valid hd)
    (List.cons.inj records).1
  have usage : tlsaUsage (fields usageTwo 1) = 3 := (List.cons.inj data).1
  revert usage
  decide +kernel

theorem storesGiven_mail :
    StoresGiven (fields (ascii "a:::00ff")) (compileLine ⟨0, 0⟩ (ascii "_a:::00ff")) := by
  refine (storesGiven_iff ⟨0, 0⟩ (by decide +kernel) (by decide +kernel) (by decide +kernel)).mpr ?_
  exact ⟨by decide +kernel, by decide +kernel, by decide +kernel, by decide +kernel,
    .inl (by decide +kernel)⟩

end TinyDnssec.Data
