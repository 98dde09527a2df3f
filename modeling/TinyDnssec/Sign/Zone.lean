import TinyDnssec.Base32
import TinyDnssec.Sign.Bitmaps
import TinyDnssec.Sign.Buckets
import TinyDnssec.Sign.Control
import TinyDnssec.Sign.Keytag

/-!
# The NSEC3 records of a zone

`tinydns-sign` hashes each name of a zone and the names between it and the apex, whether they have
records or not, and stops where it meets a name that has its hash already. The hashes are linked in
ascending order and cut into buckets (`byNibble`), and each makes an NSEC3 record and a HASHREF record.

The names of the zone and the hashes come in the order of a Perl hash, which is any order. Whatever it is,
the records are one of each kind for each node of the zone, and their links go around once
(`signZones_chained`). A collision of two hashes ends the program, and where all hashes of a zone begin
with the nibble 0 it never ends (`signZones_ends_iff`). The signatures are not made here.
-/

namespace TinyDnssec.Sign

open Octets Cyclic

/-- A name for the instance, so that the definitions below hold no proof of it. -/
local instance namesLawful : LawfulBEq Bytes := inferInstance

/-! ## Hashing -/

/-- `while ($iter-- >= 0)`, which makes one turn more than `$iter`. -/
def hashAgain (sha1 : Chars → Bytes) (salt : Bytes) : Nat → Chars → Bytes
  | 0, dig => sha1 (dig ++ salt.map UInt8.toNat)
  | iter + 1, dig => hashAgain sha1 salt iter ((sha1 (dig ++ salt.map UInt8.toNat)).map UInt8.toNat)

def nsec3hash (sha1 : Chars → Bytes) (name : Bytes) (iter : Nat) (salt : Bytes) : Bytes :=
  hashAgain sha1 salt iter (wireName name)

/-- `getOrCreateRRs`, for a name in lower case as they are in the table. -/
def Names.getOrCreate (names : Names) (dom : Bytes) : Names :=
  if names.has dom then names else names ++ [(dom, [])]

/-- What the loop over a zone writes: the table, the keys of `%{$rec->{zone}}`, `%hashes` with what each
hash was made of, and the names that have a hash. -/
structure Hashing where
  names : Names
  zone : List Bytes
  hashes : List (Bytes × Bytes)
  hashed : List Bytes

/-- A name gets its hash; `none` is a collision. -/
def Hashing.enter (s : Hashing) (hash : Bytes → Bytes) (name : Bytes) : Option Hashing :=
  if hash name ∈ s.hashes.map Prod.fst then none
  else some
    { s with
      zone := s.zone.insert name
      hashes := s.hashes ++ [(hash name, name)]
      hashed := name :: s.hashed }

/-- `do { … } while ($rr->{name} ne $zone)`, with the names above the one it is at. At a name without a
dot the loop comes back to the name, which has its hash then. -/
def hashUp (hash : Bytes → Bytes) (apex : Bytes) : Bytes → List Bytes → Hashing → Option Hashing
  | name, ancs, s =>
    let s := { s with names := s.names.getOrCreate name }
    if name ∈ s.hashed then some s
    else
      match s.enter hash name with
      | none => none
      | some s =>
        if name = apex then some s
        else
          match ancs with
          | [] => some s
          | anc :: rest => hashUp hash apex anc rest s

/-- `foreach my $name (keys %{$rec->{zone}})` -/
def hashAll (hash : Bytes → Bytes) (apex : Bytes) (order : List Bytes) (s : Hashing) : Option Hashing :=
  order.foldlM (fun s name => hashUp hash apex name (ancestors name) s) s

/-! ## The records -/

/-- What `addNS3P` keeps of a pseudo-record. -/
structure Nsec3Param where
  flags : Nat
  alg : Nat
  iterations : Nat
  salt : Bytes

/-- What is printed by `makeGenericRecord`. -/
structure Generic where
  owner : Bytes
  type : Nat
  rdata : Chars
  deriving DecidableEq

/-- `chr($alg).chr($flag).&htons($iter).chr($len).pack("H*", $salt)` -/
def nsec3paramRdata (n3p : Nsec3Param) : Chars :=
  [n3p.alg] ++ [n3p.flags] ++ htons n3p.iterations ++ [n3p.salt.length] ++ n3p.salt.map UInt8.toNat

/-- The data of the NSEC3 record of a name with records of these types. -/
def nsec3Rdata (n3p : Nsec3Param) (next : Bytes) (types : List Nat) : Chars :=
  nsec3paramRdata n3p ++ [next.length] ++ next.map UInt8.toNat ++ (genTypeBitmaps types).map UInt8.toNat

/-- `&base32hex($hash).".".$zone` -/
def hashedOwner (apex hash : Bytes) : Bytes := Base32.Sign.base32hex hash ++ ascii "." ++ apex

/-- `addRecord`, as far as it adds a type. -/
def Names.addType (names : Names) (dom : Bytes) (type : Nat) : Names :=
  names.map fun rec => if rec.1 = dom ∧ type ∉ rec.2 then (dom, rec.2 ++ [type]) else rec

/-- What the loop over `values %hashes` writes. -/
structure Printing where
  names : Names
  zone : List Bytes
  out : List Generic

/-- The NSEC3 record of a hash. -/
def nsec3Record (n3p : Nsec3Param) (apex hash next : Bytes) (types : List Nat) : Generic :=
  ⟨hashedOwner apex hash, 50, nsec3Rdata n3p next types⟩

/-- The HASHREF record of the name that a hash was made of. -/
def hashrefRecord (apex hash generator : Bytes) : Generic :=
  ⟨generator, 65281, wireName (hashedOwner apex hash)⟩

def nsec3Step (n3p : Nsec3Param) (apex : Bytes) (next : List (Bytes × Bytes)) (s : Printing)
    (entry : Bytes × Bytes) : Printing :=
  let owner := hashedOwner apex entry.1
  let names := (s.names.getOrCreate owner).getOrCreate entry.2
  { names := names.addType owner 50
    zone := s.zone.insert owner
    out := s.out ++
      [nsec3Record n3p apex entry.1 ((next.lookup entry.1).getD []) (names.types entry.2),
        hashrefRecord apex entry.1 entry.2] }

/-- `sprintf("%x", $nib)` -/
def hexChar (nib : Nat) : UInt8 := UInt8.ofNat (if nib < 10 then 48 + nib else 87 + nib)

/-- `sprintf("%x", $nib).".$zone"` -/
def bucketOwner (apex : Bytes) (nib : Nat) : Bytes := hexChar nib :: 46 :: apex

/-- The list of a bucket. -/
def bucketStep (apex : Bytes) (b : Buckets) (s : Printing) (nib : Nat) : Printing :=
  let owner := bucketOwner apex nib
  { s with
    names := (s.names.getOrCreate owner).addType owner 65282
    out := s.out ++ [⟨owner, 65282, (deref b nib).flatten.map UInt8.toNat⟩] }

/-- The orders that Perl's hashes come in, and what is known of each zone. -/
structure Signer where
  sha1 : Chars → Bytes
  keys : Bytes → Bool
  nsec3p : Bytes → Option Nsec3Param
  keyOrder : Bytes → List Bytes → List Bytes
  valueOrder : Bytes → List (Bytes × Bytes) → List (Bytes × Bytes)

/-- The hash of a name in a zone with these parameters. -/
def Signer.hash (g : Signer) (n3p : Nsec3Param) (name : Bytes) : Bytes :=
  nsec3hash g.sha1 name n3p.iterations n3p.salt

/-- What `tinydns-sign` prints for a zone up to the signatures; `none` is a collision, or loops that
still run. -/
def signZone (g : Signer) (n3p : Nsec3Param) (apex : Bytes) (fuel : Nat) (s : Hashing) :
    Option (Printing × List Bytes) := do
  let s ← hashAll (g.hash n3p) apex (g.keyOrder apex s.zone) s
  let (b, next) ← byNibble fuel (s.hashes.map Prod.fst)
  let p := (g.valueOrder apex s.hashes).foldl (nsec3Step n3p apex next) ⟨s.names, s.zone, []⟩
  some ((List.range 16).foldl (bucketStep apex b) p, s.hashed)

/-- The zone of an apex, with all the names in it that get signatures. -/
structure Signed where
  apex : Bytes
  zone : List Bytes
  out : List Generic

/-- The state of `foreach my $zone (@main::zones)`. -/
structure Signing where
  names : Names
  hashed : List Bytes
  done : List Signed

/-- `keys %{$rec->{zone}}` -/
def Controls.keys (c : Controls) (apex : Bytes) : List Bytes :=
  (c.zone.filter fun pair => decide (pair.1 = apex)).map Prod.snd

def signStep (g : Signer) (c : Controls) (fuel : Nat) (s : Signing) (apex : Bytes) : Option Signing :=
  if g.keys apex then
    match g.nsec3p apex with
    | none => some s
    | some n3p => do
      let (p, hashed) ← signZone g n3p apex fuel ⟨s.names, c.keys apex, [], s.hashed⟩
      some ⟨p.names, hashed, s.done ++ [⟨apex, p.zone, p.out⟩]⟩
  else some { s with names := s.names.filter fun rec => decide (rec.1 ∉ c.keys apex) }

/-- The loop over the zones. -/
def signZones (g : Signer) (names : Names) (c : Controls) (fuel : Nat) : Option Signing :=
  c.zones.foldlM (signStep g c fuel) ⟨names, [], []⟩

/-! ## The nodes of a zone -/

/-- **The names that have an NSEC3 record**: those of the table that the apex governs, and those between
one of them and the apex. -/
def Node (names : Names) (apex name : Bytes) : Prop :=
  Governs names apex name ∧
    ∃ dom, names.has dom = true ∧ Governs names apex dom ∧ name ∈ dom :: ancestors dom

/-- A list up to the apex. -/
def upTo (apex : Bytes) : List Bytes → List Bytes
  | [] => []
  | name :: rest => if name = apex then [name] else name :: upTo apex rest

/-- What the loop hashes for a name. -/
def nodes (apex name : Bytes) : List Bytes := upTo apex (name :: ancestors name)

/-! ## The names above a name -/

theorem ancestors_shorter (name : Bytes) :
    (name :: ancestors name).Pairwise fun a b => b.length < a.length := by
  induction name with
  | nil => exact List.pairwise_singleton _ _
  | cons c s ih =>
    refine List.pairwise_cons.mpr ⟨fun anc h => length_ancestors h, ?_⟩
    unfold ancestors
    split
    · exact ih
    · exact (List.pairwise_cons.mp ih).2

theorem ancestors_nodup (name : Bytes) : (name :: ancestors name).Nodup := by
  refine (ancestors_shorter name).imp ?_
  rintro a b hlt rfl
  exact absurd hlt (lt_irrefl _)

/-- The names above a name that is above another. -/
theorem ancestors_split {dom name : Bytes} {front rest : List Bytes}
    (h : dom :: ancestors dom = front ++ name :: rest) : rest = ancestors name := by
  cases front with
  | nil =>
    obtain ⟨rfl, rfl⟩ := List.cons.inj h
    rfl
  | cons f front => exact ancestors_tail (List.cons.inj h).2

theorem upTo_front (apex : Bytes) (l : List Bytes) : upTo apex l <+: l := by
  induction l with
  | nil => exact List.prefix_refl []
  | cons name rest ih =>
    unfold upTo
    split
    · exact ⟨rest, rfl⟩
    · exact List.prefix_cons_inj name |>.mpr ih

theorem upTo_split {apex : Bytes} {l front back : List Bytes} {name : Bytes}
    (h : upTo apex l = front ++ name :: back) :
    ∃ rest, l = front ++ name :: rest ∧ name :: back = upTo apex (name :: rest) := by
  induction l generalizing front with
  | nil => exact absurd h.symm (List.append_ne_nil_of_right_ne_nil front (List.cons_ne_nil _ _))
  | cons first l ih =>
    cases front with
    | nil =>
      have hfirst : first = name := by
        unfold upTo at h
        split at h <;> exact (List.cons.inj h).1
      subst hfirst
      exact ⟨l, rfl, h.symm⟩
    | cons f front =>
      unfold upTo at h
      split at h
      · exact absurd (List.cons.inj h).2.symm
          (List.append_ne_nil_of_right_ne_nil front (List.cons_ne_nil _ _))
      · obtain ⟨rfl, hrest⟩ := List.cons.inj h
        obtain ⟨rest, rfl, hback⟩ := ih hrest
        exact ⟨rest, rfl, hback⟩

/-- From a node on, a path is the path of the node. -/
theorem nodes_split {apex dom name : Bytes} {front back : List Bytes}
    (h : nodes apex dom = front ++ name :: back) : name :: back = nodes apex name := by
  obtain ⟨rest, hsplit, hback⟩ := upTo_split h
  rw [hback, ancestors_split hsplit]
  rfl

theorem nodes_nodup (apex dom : Bytes) : (nodes apex dom).Nodup :=
  (ancestors_nodup dom).sublist (upTo_front apex _).sublist

theorem upTo_append {apex : Bytes} {below : List Bytes} (h : apex ∉ below) (rest : List Bytes) :
    upTo apex (below ++ apex :: rest) = below ++ [apex] := by
  induction below with
  | nil => exact if_pos rfl
  | cons name below ih =>
    have hname : name ≠ apex := (List.ne_of_not_mem_cons h).symm
    rw [List.cons_append, upTo, if_neg hname, ih (List.not_mem_of_not_mem_cons h), List.cons_append]

section

variable {names : Names} {apex dom name : Bytes}

/-- The path of a name that the apex governs. -/
theorem Governs.nodes_eq (h : Governs names apex dom) : ∃ below,
    dom :: ancestors dom = below ++ apex :: ancestors apex ∧ nodes apex dom = below ++ [apex] ∧
      (∀ anc ∈ below, 6 ∉ names.types anc) ∧ ∀ anc ∈ below.tail, 2 ∉ names.types anc := by
  obtain ⟨home, below, hsplit, plain, undelegated⟩ := h
  refine ⟨below, hsplit, ?_, plain, undelegated⟩
  unfold nodes
  rw [hsplit]
  exact upTo_append (fun hmem => plain apex hmem home) _

/-- The path of a name has the names at and above it that the apex governs too. -/
theorem Governs.mem_nodes (h : Governs names apex dom) :
    name ∈ nodes apex dom ↔ name ∈ dom :: ancestors dom ∧ Governs names apex name := by
  obtain ⟨below, hsplit, hnodes, plain, undelegated⟩ := h.nodes_eq
  constructor
  · intro hmem
    refine ⟨(upTo_front apex _).subset hmem, h.1, ?_⟩
    obtain ⟨front, back, hback⟩ := List.append_of_mem hmem
    have hpath := nodes_split hback
    obtain ⟨rest, hfront, hrest⟩ := upTo_split hback
    have htail := ancestors_split hfront
    subst htail
    rw [hnodes] at hback
    rw [hsplit] at hfront
    -- The name is the apex itself, or one of those below it.
    rcases List.eq_nil_or_concat back with rfl | ⟨back', last, rfl⟩
    · obtain ⟨-, hlast⟩ := List.append_inj' hback rfl
      obtain rfl : apex = name := (List.cons.inj hlast).1
      exact ⟨[], rfl, fun _ ha => absurd ha List.not_mem_nil, fun _ ha => absurd ha List.not_mem_nil⟩
    · rw [List.concat_eq_append, ← List.cons_append, ← List.append_assoc] at hback
      obtain ⟨hbelow, -⟩ := List.append_inj' hback rfl
      subst hbelow
      refine ⟨name :: back', ?_, fun a ha => plain a (List.mem_append_right _ ha), ?_⟩
      · rw [List.append_assoc] at hfront
        exact (List.append_cancel_left hfront).symm
      · intro a ha
        apply undelegated a
        cases front with
        | nil => exact ha
        | cons f front => exact List.mem_append_right _ (List.mem_cons_of_mem name ha)
  · rintro ⟨hmem, -, below', hsplit', -⟩
    rw [hsplit] at hmem
    rw [hnodes]
    rcases List.mem_append.mp hmem with hmem | hmem
    · exact List.mem_append_left _ hmem
    · rcases List.mem_cons.mp hmem with rfl | hmem
      · exact List.mem_append_right _ (List.mem_singleton_self _)
      · -- A name above the apex is too short to be governed by it.
        have hshort := length_ancestors hmem
        have hat : apex ∈ name :: ancestors name :=
          hsplit' ▸ List.mem_append_right _ List.mem_cons_self
        rcases List.mem_cons.mp hat with rfl | hat
        · exact absurd hshort (lt_irrefl _)
        · exact absurd (length_ancestors hat) (lt_asymm hshort)

theorem node_iff : Node names apex name ↔
    ∃ dom, names.has dom = true ∧ Governs names apex dom ∧ name ∈ nodes apex dom := by
  constructor
  · rintro ⟨hgoverns, dom, there, hdom, hmem⟩
    exact ⟨dom, there, hdom, hdom.mem_nodes.mpr ⟨hmem, hgoverns⟩⟩
  · rintro ⟨dom, there, hdom, hmem⟩
    obtain ⟨hmem, hgoverns⟩ := hdom.mem_nodes.mp hmem
    exact ⟨hgoverns, dom, there, hdom, hmem⟩

end

/-! ## The hashing loop -/

theorem types_getOrCreate (names : Names) (dom name : Bytes) :
    (names.getOrCreate dom).types name = names.types name := by
  unfold Names.getOrCreate
  split
  · rfl
  · rename_i habsent
    unfold Names.types
    rw [List.lookup_append]
    cases hrec : names.lookup name with
    | some types => rfl
    | none =>
      rw [Option.none_or, List.lookup_cons]
      split <;> rfl

/-- Some names got their hashes. -/
structure Added (hash : Bytes → Bytes) (s : Hashing) (added : List Bytes) (s' : Hashing) : Prop where
  hashes : s'.hashes = s.hashes ++ added.map fun name => (hash name, name)
  hashed : ∀ name, name ∈ s'.hashed ↔ name ∈ s.hashed ∨ name ∈ added
  zone : ∀ name, name ∈ s'.zone ↔ name ∈ s.zone ∨ name ∈ added
  types : ∀ name, s'.names.types name = s.names.types name
  apart : (s.hashes.map Prod.fst).Nodup → (s'.hashes.map Prod.fst).Nodup

section

variable {hash : Bytes → Bytes} {apex : Bytes} {s s' s'' : Hashing}

theorem Added.refl (s : Hashing) : Added hash s [] s where
  hashes := (List.append_nil _).symm
  hashed _ := (or_iff_left List.not_mem_nil).symm
  zone _ := (or_iff_left List.not_mem_nil).symm
  types _ := rfl
  apart := id

theorem Added.trans {added more : List Bytes} (h : Added hash s added s') (h' : Added hash s' more s'') :
    Added hash s (added ++ more) s'' where
  hashes := by rw [h'.hashes, h.hashes, List.append_assoc, ← List.map_append]
  hashed name := by rw [h'.hashed, h.hashed, List.mem_append, or_assoc]
  zone name := by rw [h'.zone, h.zone, List.mem_append, or_assoc]
  types name := (h'.types name).trans (h.types name)
  apart := h'.apart ∘ h.apart

theorem enter_added {name : Bytes} (run : s.enter hash name = some s') : Added hash s [name] s' := by
  unfold Hashing.enter at run
  split at run
  · cases run
  · rename_i hfresh
    cases run
    refine ⟨rfl, ?_, ?_, fun _ => rfl, ?_⟩
    · intro n
      rw [List.mem_singleton]
      exact List.mem_cons.trans or_comm
    · intro n
      rw [List.mem_singleton]
      exact List.mem_insert_iff.trans or_comm
    · intro nodup
      simp only [List.map_append, List.map_cons, List.map_nil]
      refine List.nodup_append.mpr ⟨nodup, List.nodup_singleton _, ?_⟩
      rintro a ha b hb rfl
      exact hfresh (List.mem_singleton.mp hb ▸ ha)

theorem create_added (name : Bytes) :
    Added hash s [] { s with names := s.names.getOrCreate name } :=
  { @Added.refl hash s with types := types_getOrCreate s.names name }

theorem upTo_cons (apex name : Bytes) (ancs : List Bytes) :
    ∃ rest, upTo apex (name :: ancs) = name :: rest := by
  unfold upTo
  split <;> exact ⟨_, rfl⟩

/-- **The loop for one name hashes its path**, up to the apex or the first name that has a hash. -/
theorem hashUp_added {ancs : List Bytes} {name : Bytes} (run : hashUp hash apex name ancs s = some s') :
    ∃ added rest, upTo apex (name :: ancs) = added ++ rest ∧ Added hash s added s' ∧
      (∀ n ∈ added, n ∉ s.hashed) ∧ ∀ n back, rest = n :: back → n ∈ s.hashed ∨ n ∈ added := by
  induction ancs generalizing name s with
  | nil =>
    unfold hashUp at run
    simp only [] at run
    split at run
    · rename_i hold
      cases run
      refine ⟨[], _, rfl, create_added name, fun n hn => absurd hn List.not_mem_nil, ?_⟩
      intro n back hback
      obtain ⟨rest, hrest⟩ := upTo_cons apex name []
      obtain rfl := (List.cons.inj (hrest.symm.trans hback)).1
      exact .inl hold
    · rename_i hfresh
      split at run
      · cases run
      · rename_i s₁ henter
        have hone : Added hash s [name] s₁ := (create_added name).trans (enter_added henter)
        have hpath : upTo apex [name] = [name] := by
          unfold upTo
          split <;> rfl
        have hstop : s' = s₁ := by
          split at run <;> exact (Option.some_inj.mp run).symm
        refine ⟨[name], [], hpath, hstop ▸ hone, ?_, fun n back hback => nomatch hback⟩
        intro n hn
        rw [List.mem_singleton.mp hn]
        exact hfresh
  | cons anc ancs ih =>
    unfold hashUp at run
    simp only [] at run
    split at run
    · rename_i hold
      cases run
      refine ⟨[], _, rfl, create_added name, fun n hn => absurd hn List.not_mem_nil, ?_⟩
      intro n back hback
      obtain ⟨rest, hrest⟩ := upTo_cons apex name (anc :: ancs)
      obtain rfl := (List.cons.inj (hrest.symm.trans hback)).1
      exact .inl hold
    · rename_i hfresh
      split at run
      · cases run
      · rename_i s₁ henter
        have hone : Added hash s [name] s₁ := (create_added name).trans (enter_added henter)
        have hself : ∀ n ∈ [name], n ∉ s.hashed := by
          intro n hn
          rw [List.mem_singleton.mp hn]
          exact hfresh
        split at run
        · rename_i hapex
          cases run
          exact ⟨[name], [], if_pos hapex, hone, hself, fun n back hback => nomatch hback⟩
        · rename_i hbelow
          obtain ⟨added, rest, hpath, hmore, hnew, hhead⟩ := ih run
          refine ⟨name :: added, rest, ?_, hone.trans hmore, ?_, ?_⟩
          · rw [upTo, if_neg hbelow, hpath, List.cons_append]
          · intro n hn
            rcases List.mem_cons.mp hn with rfl | hn
            · exact hfresh
            · exact fun hold => hnew n hn ((hone.hashed n).mpr (.inl hold))
          · intro n back hback
            rcases hhead n back hback with hold | hn
            · refine ((hone.hashed n).mp hold).imp_right fun hn => ?_
              rw [List.mem_singleton.mp hn]
              exact List.mem_cons_self
            · exact .inr (List.mem_cons_of_mem name hn)

/-- The names that have a hash of this zone, with their hashes. -/
structure Hashes (hash : Bytes → Bytes) (gens : List Bytes) (s : Hashing) : Prop where
  pairs : s.hashes = gens.map fun name => (hash name, name)
  hashed : ∀ name ∈ gens, name ∈ s.hashed

theorem Hashes.added {gens added : List Bytes} (h : Hashes hash gens s) (h' : Added hash s added s') :
    Hashes hash (gens ++ added) s' where
  pairs := by rw [h'.hashes, h.pairs, List.map_append]
  hashed name hname := (h'.hashed name).mpr ((List.mem_append.mp hname).imp_left (h.hashed name))

theorem enter_collision {gens : List Bytes} (h : Hashes hash gens s) {name : Bytes}
    (fresh : name ∉ s.hashed) (run : s.enter hash name = none) : ∃ b ∈ gens, name ≠ b ∧ hash name = hash b := by
  unfold Hashing.enter at run
  split at run
  · rename_i hmem
    rw [h.pairs, List.map_map] at hmem
    obtain ⟨b, hb, hsame⟩ := List.mem_map.mp hmem
    refine ⟨b, hb, ?_, hsame.symm⟩
    rintro rfl
    exact fresh (h.hashed name hb)
  · cases run

/-- A collision that ends the loop for one name is one of two names. -/
theorem hashUp_collision {ancs : List Bytes} {name : Bytes} (run : hashUp hash apex name ancs s = none)
    {gens : List Bytes} (h : Hashes hash gens s) :
    ∃ a b, a ≠ b ∧ hash a = hash b ∧ a ∈ upTo apex (name :: ancs) ∧
      (b ∈ gens ∨ b ∈ upTo apex (name :: ancs)) := by
  have hfirst (ancs : List Bytes) : name ∈ upTo apex (name :: ancs) := by
    obtain ⟨rest, hrest⟩ := upTo_cons apex name ancs
    rw [hrest]
    exact List.mem_cons_self
  induction ancs generalizing name s gens with
  | nil =>
    unfold hashUp at run
    simp only [] at run
    split at run
    · cases run
    · rename_i hfresh
      split at run
      · rename_i henter
        have hcreated := h.added (create_added name)
        rw [List.append_nil] at hcreated
        obtain ⟨b, hb, hne, hsame⟩ := enter_collision hcreated hfresh henter
        exact ⟨name, b, hne, hsame, hfirst _, .inl hb⟩
      · split at run <;> cases run
  | cons anc ancs ih =>
    unfold hashUp at run
    simp only [] at run
    split at run
    · cases run
    · rename_i hfresh
      have hcreated := h.added (create_added name)
      rw [List.append_nil] at hcreated
      split at run
      · rename_i henter
        obtain ⟨b, hb, hne, hsame⟩ := enter_collision hcreated hfresh henter
        exact ⟨name, b, hne, hsame, hfirst _, .inl hb⟩
      · rename_i s₁ henter
        split at run
        · cases run
        · rename_i hbelow
          have hmore := hcreated.added (enter_added henter)
          have hanc (ancs : List Bytes) : anc ∈ upTo apex (anc :: ancs) := by
            obtain ⟨rest, hrest⟩ := upTo_cons apex anc ancs
            rw [hrest]
            exact List.mem_cons_self
          obtain ⟨a, b, hne, hsame, ha, hb⟩ := ih run hmore hanc
          have hpath : upTo apex (name :: anc :: ancs) = name :: upTo apex (anc :: ancs) := if_neg hbelow
          rw [hpath]
          refine ⟨a, b, hne, hsame, List.mem_cons_of_mem name ha, ?_⟩
          rcases hb with hb | hb
          · rcases List.mem_append.mp hb with hb | hb
            · exact .inl hb
            · rw [List.mem_singleton.mp hb]
              exact .inr List.mem_cons_self
          · exact .inr (List.mem_cons_of_mem name hb)

/-! ## The hashes of a zone -/

/-- The names that have a hash, when some names have been through the loop. -/
structure Walked (hash : Bytes → Bytes) (apex : Bytes) (start : Hashing) (gens : List Bytes)
    (s : Hashing) : Prop where
  added : Added hash start gens s
  once : gens.Nodup
  closed : ∀ name ∈ gens, ∀ above ∈ nodes apex name, above ∈ gens

theorem Walked.step {start : Hashing} {gens : List Bytes} (h : Walked hash apex start gens s)
    {dom : Bytes} (fresh : ∀ name ∈ nodes apex dom, name ∉ start.hashed)
    (run : hashUp hash apex dom (ancestors dom) s = some s') :
    ∃ gens', Walked hash apex start gens' s' ∧
      ∀ name, name ∈ gens' ↔ name ∈ gens ∨ name ∈ nodes apex dom := by
  obtain ⟨added, rest, hpath, hadded, hnew, hhead⟩ := hashUp_added run
  have hpath : nodes apex dom = added ++ rest := hpath
  have hnodup := hpath ▸ nodes_nodup apex dom
  have hdisjoint : ∀ name ∈ added, name ∉ gens := fun name hname hgen =>
    hnew name hname ((h.added.hashed name).mpr (.inr hgen))
  -- Behind what was hashed now comes a path that was hashed before.
  have hrest : ∀ name ∈ rest, name ∈ gens := by
    cases rest with
    | nil => exact fun name hname => absurd hname List.not_mem_nil
    | cons first back =>
      have hmem : first ∈ nodes apex dom := hpath ▸ List.mem_append_right added List.mem_cons_self
      have hgen : first ∈ gens := by
        rcases hhead first back rfl with hold | hadd
        · exact ((h.added.hashed first).mp hold).resolve_left (fresh first hmem)
        · exact absurd rfl ((List.nodup_append.mp hnodup).2.2 first hadd first List.mem_cons_self)
      have hback := nodes_split hpath
      exact fun name hname => h.closed first hgen name (hback ▸ hname)
  have hall : ∀ name, name ∈ gens ++ added ↔ name ∈ gens ∨ name ∈ nodes apex dom := by
    intro name
    rw [hpath, List.mem_append, List.mem_append]
    constructor
    · exact fun hname => hname.imp_right .inl
    · rintro (hgen | hadd | hmem)
      · exact .inl hgen
      · exact .inr hadd
      · exact .inl (hrest name hmem)
  refine ⟨gens ++ added, ⟨h.added.trans hadded, ?_, ?_⟩, hall⟩
  · refine List.nodup_append.mpr ⟨h.once, (List.nodup_append.mp hnodup).1, ?_⟩
    rintro a ha b hb rfl
    exact hdisjoint a hb ha
  · intro name hname above habove
    rcases List.mem_append.mp hname with hgen | hadd
    · exact List.mem_append_left added (h.closed name hgen above habove)
    · obtain ⟨front, back, rfl⟩ := List.append_of_mem hadd
      rw [List.append_assoc, List.cons_append] at hpath
      have hback := nodes_split hpath
      rw [← hback] at habove
      exact (hall above).mpr (.inr (hpath ▸ List.mem_append_right front habove))

/-- **Every name of the paths gets its hash once**, in whatever order the names come. -/
theorem hashAll_walked {start : Hashing} {order : List Bytes}
    (fresh : ∀ dom ∈ order, ∀ name ∈ nodes apex dom, name ∉ start.hashed) {gens : List Bytes}
    (h : Walked hash apex start gens s) (run : hashAll hash apex order s = some s') :
    ∃ gens', Walked hash apex start gens' s' ∧
      ∀ name, name ∈ gens' ↔ name ∈ gens ∨ ∃ dom ∈ order, name ∈ nodes apex dom := by
  induction order generalizing s gens with
  | nil =>
    cases run
    refine ⟨gens, h, fun name => (or_iff_left ?_).symm⟩
    rintro ⟨dom, hdom, -⟩
    cases hdom
  | cons dom order ih =>
    unfold hashAll at run
    rw [List.foldlM_cons] at run
    obtain ⟨s₁, hfirst, hothers⟩ := Option.bind_eq_some_iff.mp run
    obtain ⟨gens₁, hwalked, hgens₁⟩ := h.step (fresh dom List.mem_cons_self) hfirst
    obtain ⟨gens', hwalked', hgens'⟩ :=
      ih (fun d hd => fresh d (List.mem_cons_of_mem dom hd)) hwalked hothers
    refine ⟨gens', hwalked', fun name => ?_⟩
    rw [hgens', hgens₁, or_assoc]
    simp only [List.mem_cons, exists_eq_or_imp]

/-- A collision that ends the loop is one of two names. -/
theorem hashAll_collision {start : Hashing} (none : start.hashes = []) {order : List Bytes}
    (fresh : ∀ dom ∈ order, ∀ name ∈ nodes apex dom, name ∉ start.hashed) {gens : List Bytes}
    (h : Walked hash apex start gens s) (run : hashAll hash apex order s = .none) :
    ∃ a b, a ≠ b ∧ hash a = hash b ∧ (∃ dom ∈ order, a ∈ nodes apex dom) ∧
      (b ∈ gens ∨ ∃ dom ∈ order, b ∈ nodes apex dom) := by
  induction order generalizing s gens with
  | nil => cases run
  | cons dom order ih =>
    unfold hashAll at run
    rw [List.foldlM_cons] at run
    cases hfirst : hashUp hash apex dom (ancestors dom) s with
    | none =>
      have hhashes : Hashes hash gens s := by
        refine ⟨?_, fun name hname => (h.added.hashed name).mpr (.inr hname)⟩
        rw [h.added.hashes, none, List.nil_append]
      obtain ⟨a, b, hne, hsame, ha, hb⟩ := hashUp_collision hfirst hhashes
      exact ⟨a, b, hne, hsame, ⟨dom, List.mem_cons_self, ha⟩,
        hb.imp_right fun hb => ⟨dom, List.mem_cons_self, hb⟩⟩
    | some s₁ =>
      rw [hfirst] at run
      obtain ⟨gens₁, hwalked, hgens₁⟩ := h.step (fresh dom List.mem_cons_self) hfirst
      obtain ⟨a, b, hne, hsame, ⟨d, hd, ha⟩, hb⟩ :=
        ih (fun d hd => fresh d (List.mem_cons_of_mem dom hd)) hwalked run
      refine ⟨a, b, hne, hsame, ⟨d, List.mem_cons_of_mem dom hd, ha⟩, ?_⟩
      rcases hb with hb | ⟨d', hd', hb⟩
      · exact ((hgens₁ b).mp hb).imp_right fun hb => ⟨dom, List.mem_cons_self, hb⟩
      · exact .inr ⟨d', List.mem_cons_of_mem dom hd', hb⟩

end

/-! ## The records of a zone -/

/-- The types of a name when records have been printed. `addRecord` enters them all but the HASHREF
records. -/
def typesAfter (printed : List Generic) (name : Bytes) (types : List Nat) : List Nat :=
  printed.foldl (fun types r =>
    if r.owner = name ∧ r.type ≠ 65281 ∧ r.type ∉ types then types ++ [r.type] else types) types

section

variable {printed : List Generic} {name : Bytes} {types : List Nat}

theorem typesAfter_append (more : List Generic) :
    typesAfter (printed ++ more) name types = typesAfter more name (typesAfter printed name types) :=
  List.foldl_append

/-- Beside its types in the table, a name has those of the records printed under it. -/
theorem mem_typesAfter {t : Nat} : t ∈ typesAfter printed name types ↔
    t ∈ types ∨ t ≠ 65281 ∧ ∃ r ∈ printed, r.owner = name ∧ r.type = t := by
  induction printed generalizing types with
  | nil =>
    refine (or_iff_left ?_).symm
    rintro ⟨-, r, hr, -⟩
    cases hr
  | cons r printed ih =>
    unfold typesAfter at ih ⊢
    rw [List.foldl_cons, ih]
    simp only [List.mem_cons, exists_eq_or_imp]
    split
    · rename_i hnew
      rw [List.mem_append, List.mem_singleton, or_assoc]
      grind
    · rename_i hold
      grind

end

theorem lookup_map_snd {names : Names} {f : Bytes × List Nat → Bytes × List Nat}
    (keys : ∀ rec ∈ names, (f rec).1 = rec.1) {name : Bytes} (same : ∀ types, f (name, types) = (name, types)) :
    Names.types (names.map f) name = names.types name := by
  induction names with
  | nil => rfl
  | cons rec names ih =>
    have hkey := keys rec List.mem_cons_self
    have ih := ih fun r hr => keys r (List.mem_cons_of_mem rec hr)
    unfold Names.types at ih ⊢
    rw [List.map_cons, List.lookup_cons, List.lookup_cons, hkey]
    by_cases hname : name = rec.1
    · subst hname
      have hrec : f rec = rec := same rec.2
      rw [hrec]
      simp only [beq_self_eq_true]
    · rw [beq_eq_false_iff_ne.mpr hname]
      exact ih

theorem types_addType {names : Names} {dom name : Bytes} (other : name ≠ dom) (type : Nat) :
    (names.addType dom type).types name = names.types name := by
  refine lookup_map_snd ?_ fun types => if_neg fun h => other h.1
  intro rec hrec
  split
  · rename_i h
    exact h.1.symm
  · rfl

theorem types_addType_self {names : Names} {dom : Bytes} (there : names.has dom = true) (type : Nat) :
    (names.addType dom type).types dom =
      if type ∉ names.types dom then names.types dom ++ [type] else names.types dom := by
  induction names with
  | nil => cases there
  | cons rec names ih =>
    unfold Names.has at there
    unfold Names.types Names.addType at ih ⊢
    rw [List.map_cons, List.lookup_cons, List.lookup_cons]
    rw [List.lookup_cons] at there
    by_cases hdom : dom = rec.1
    · subst hdom
      have hkey : (if rec.1 = rec.1 ∧ type ∉ rec.2 then (rec.1, rec.2 ++ [type]) else rec).1 = rec.1 := by
        split <;> rfl
      rw [hkey, beq_self_eq_true]
      simp only [true_and, Option.getD_some]
      split <;> rfl
    · rw [if_neg fun h => hdom h.1.symm, beq_eq_false_iff_ne.mpr hdom]
      rw [beq_eq_false_iff_ne.mpr hdom] at there
      exact ih there

theorem has_getOrCreate {names : Names} {name : Bytes} (dom : Bytes) (there : names.has name = true) :
    (names.getOrCreate dom).has name = true := by
  unfold Names.getOrCreate
  split
  · exact there
  · obtain ⟨types, htypes⟩ := Option.isSome_iff_exists.mp there
    unfold Names.has
    rw [List.lookup_append, htypes]
    rfl

theorem getOrCreate_has (names : Names) (dom : Bytes) : (names.getOrCreate dom).has dom = true := by
  unfold Names.getOrCreate
  split
  · assumption
  · unfold Names.has
    rw [List.lookup_append, List.lookup_cons, beq_self_eq_true]
    cases names.lookup dom <;> rfl

/-- The record that is printed is entered under its owner. -/
theorem types_entered {names : Names} {r : Generic} (there : names.has r.owner = true)
    (entered : r.type ≠ 65281) (name : Bytes) :
    (names.addType r.owner r.type).types name = typesAfter [r] name (names.types name) := by
  unfold typesAfter
  rw [List.foldl_cons, List.foldl_nil]
  by_cases hname : r.owner = name
  · subst hname
    rw [types_addType_self there]
    simp only [true_and, ne_eq, entered, not_false_eq_true]
  · rw [types_addType (Ne.symm hname), if_neg fun h => hname h.1]

section

variable {n3p : Nsec3Param} {apex : Bytes}

/-- The NSEC3 and HASHREF records of some names, with their hashes, the hashes behind them and the types
in the bitmaps. -/
def chainRecords (n3p : Nsec3Param) (apex : Bytes) (hash next : Bytes → Bytes)
    (types : Bytes → List Nat) (names : List Bytes) : List Generic :=
  names.flatMap fun name =>
    [nsec3Record n3p apex (hash name) (next name) (types name), hashrefRecord apex (hash name) name]

/-- The records of the sixteen lists. -/
def listRecords (apex : Bytes) (b : Buckets) (nibs : List Nat) : List Generic :=
  nibs.map fun nib => ⟨bucketOwner apex nib, 65282, (deref b nib).flatten.map UInt8.toNat⟩

/-- A HASHREF record is not entered. -/
theorem typesAfter_hashref (apex hash generator name : Bytes) (types : List Nat) :
    typesAfter [hashrefRecord apex hash generator] name types = types :=
  if_neg fun h => h.2.1 rfl

theorem nsec3Step_types (next : List (Bytes × Bytes)) (s : Printing) (entry : Bytes × Bytes)
    (name : Bytes) : (nsec3Step n3p apex next s entry).names.types name =
      typesAfter [nsec3Record n3p apex entry.1 ((next.lookup entry.1).getD []) (s.names.types entry.2),
        hashrefRecord apex entry.1 entry.2] name (s.names.types name) := by
  have hentered := @types_entered ((s.names.getOrCreate (hashedOwner apex entry.1)).getOrCreate entry.2)
    (nsec3Record n3p apex entry.1 ((next.lookup entry.1).getD []) (s.names.types entry.2))
    (has_getOrCreate _ (getOrCreate_has _ _)) (show (50 : Nat) ≠ 65281 by decide) name
  rw [types_getOrCreate, types_getOrCreate] at hentered
  have hreference := @typesAfter_append
    [nsec3Record n3p apex entry.1 ((next.lookup entry.1).getD []) (s.names.types entry.2)] name
    (s.names.types name) [hashrefRecord apex entry.1 entry.2]
  rw [typesAfter_hashref] at hreference
  exact hentered.trans hreference.symm

/-- **The loop over the hashes.** A bitmap has the types that the name has when it comes to its turn. -/
theorem foldl_nsec3Step {hash : Bytes → Bytes} {round : List (Bytes × Bytes)} {gens : List Bytes}
    (once : gens.Nodup) (s : Printing) : ∃ types : Bytes → List Nat,
      (∀ front name back, gens = front ++ name :: back → types name = typesAfter
        (chainRecords n3p apex hash (fun n => (round.lookup (hash n)).getD []) types front) name
          (s.names.types name)) ∧
      ((gens.map fun n => (hash n, n)).foldl (nsec3Step n3p apex round) s).out =
        s.out ++ chainRecords n3p apex hash (fun n => (round.lookup (hash n)).getD []) types gens ∧
      (∀ owner, owner ∈ ((gens.map fun n => (hash n, n)).foldl (nsec3Step n3p apex round) s).zone ↔
        owner ∈ s.zone ∨ ∃ n ∈ gens, owner = hashedOwner apex (hash n)) ∧
      ∀ name, ((gens.map fun n => (hash n, n)).foldl (nsec3Step n3p apex round) s).names.types name =
        typesAfter (chainRecords n3p apex hash (fun n => (round.lookup (hash n)).getD []) types gens) name
          (s.names.types name) := by
  induction gens generalizing s with
  | nil =>
    refine ⟨fun _ => [], ?_, (List.append_nil _).symm, fun owner => (or_iff_left ?_).symm, fun _ => rfl⟩
    · intro front name back h
      exact absurd h.symm (List.append_ne_nil_of_right_ne_nil front (List.cons_ne_nil _ _))
    · rintro ⟨n, hn, -⟩
      cases hn
  | cons gen gens ih =>
    obtain ⟨hfresh, once⟩ := List.nodup_cons.mp once
    obtain ⟨types, htypes, hout, hzone, hnames⟩ :=
      ih once (nsec3Step n3p apex round s (hash gen, gen))
    have hsame : ∀ names : List Bytes, gen ∉ names →
        chainRecords n3p apex hash (fun n => (round.lookup (hash n)).getD [])
          (fun n => if n = gen then s.names.types gen else types n) names =
        chainRecords n3p apex hash (fun n => (round.lookup (hash n)).getD []) types names := by
      intro names habsent
      apply List.flatMap_congr
      intro n hn
      have hother : n ≠ gen := by
        rintro rfl
        exact habsent hn
      simp only [if_neg hother]
    have hcons : ∀ names : List Bytes, gen ∉ names →
        chainRecords n3p apex hash (fun n => (round.lookup (hash n)).getD [])
          (fun n => if n = gen then s.names.types gen else types n) (gen :: names) =
        [nsec3Record n3p apex (hash gen) ((round.lookup (hash gen)).getD []) (s.names.types gen),
          hashrefRecord apex (hash gen) gen] ++
        chainRecords n3p apex hash (fun n => (round.lookup (hash n)).getD []) types names := by
      intro names habsent
      rw [← hsame names habsent]
      unfold chainRecords
      rw [List.flatMap_cons]
      simp only [if_true]
    rw [List.map_cons, List.foldl_cons]
    refine ⟨fun n => if n = gen then s.names.types gen else types n, ?_, ?_, ?_, ?_⟩
    · intro front name back h
      cases front with
      | nil =>
        obtain ⟨rfl, -⟩ := List.cons.inj h
        exact if_pos rfl
      | cons first front =>
        obtain ⟨rfl, hback⟩ := List.cons.inj h
        have hname : name ∈ gens := hback ▸ List.mem_append_right front List.mem_cons_self
        rw [hcons front fun h => hfresh (hback ▸ List.mem_append_left _ h), typesAfter_append,
          ← nsec3Step_types round s (hash gen, gen), ← htypes front name back hback]
        apply if_neg
        rintro rfl
        exact hfresh hname
    · have hhead : (nsec3Step n3p apex round s (hash gen, gen)).out = s.out ++
          [nsec3Record n3p apex (hash gen) ((round.lookup (hash gen)).getD []) (s.names.types gen),
            hashrefRecord apex (hash gen) gen] := by
        unfold nsec3Step
        simp only [types_getOrCreate]
      rw [hout, hhead, hcons gens hfresh, List.append_assoc]
    · intro owner
      have hhead : (nsec3Step n3p apex round s (hash gen, gen)).zone =
          s.zone.insert (hashedOwner apex (hash gen)) := rfl
      rw [hzone, hhead, List.mem_insert_iff]
      simp only [List.mem_cons, exists_eq_or_imp]
      rw [or_assoc, or_left_comm]
    · intro name
      rw [hnames, hcons gens hfresh, typesAfter_append, ← nsec3Step_types round s (hash gen, gen)]

/-- The loop over the buckets. -/
theorem foldl_bucketStep (b : Buckets) (nibs : List Nat) (s : Printing) :
    (nibs.foldl (bucketStep apex b) s).out = s.out ++ listRecords apex b nibs ∧
    (nibs.foldl (bucketStep apex b) s).zone = s.zone ∧
    ∀ name, (nibs.foldl (bucketStep apex b) s).names.types name =
      typesAfter (listRecords apex b nibs) name (s.names.types name) := by
  induction nibs generalizing s with
  | nil => exact ⟨(List.append_nil _).symm, rfl, fun _ => rfl⟩
  | cons nib nibs ih =>
    obtain ⟨hout, hzone, htypes⟩ := ih (bucketStep apex b s nib)
    rw [List.foldl_cons]
    refine ⟨?_, hzone.trans rfl, ?_⟩
    · unfold listRecords at hout ⊢
      rw [hout, List.map_cons, List.append_cons]
      rfl
    · intro name
      have hentered := @types_entered (s.names.getOrCreate (bucketOwner apex nib))
        ⟨bucketOwner apex nib, 65282, (deref b nib).flatten.map UInt8.toNat⟩ (getOrCreate_has _ _)
        (show (65282 : Nat) ≠ 65281 by decide) name
      rw [types_getOrCreate] at hentered
      rw [htypes name]
      exact congrArg (typesAfter (listRecords apex b nibs) name) hentered

end

/-! ## One zone -/

/-- **What `tinydns-sign` prints for a zone**, when other records have been printed: an NSEC3 record and a
HASHREF record for each node, and sixteen lists. The links of the NSEC3 records go from each hash of a node
to the next one, around the circle, and the types are those the node has in the table, with those of the
records printed under its name. -/
structure Chained (g : Signer) (names : Names) (n3p : Nsec3Param) (printed : List Generic) (d : Signed)
    (nodes : List Bytes) (types : Bytes → List Nat) (next : Bytes → Bytes) (b : Buckets) : Prop where
  once : nodes.Nodup
  node : ∀ name, name ∈ nodes ↔ Node names d.apex name
  apart : (nodes.map (g.hash n3p)).Nodup
  around : ∀ name ∈ nodes, (g.hash n3p name, next name) ∈ links (sortKeys (nodes.map (g.hash n3p)))
  buckets : ∃ fuel round, byNibble fuel (nodes.map (g.hash n3p)) = some (b, round)
  bitmap : ∀ front name back, nodes = front ++ name :: back → types name = typesAfter
    (printed ++ chainRecords n3p d.apex (g.hash n3p) next types front) name (names.types name)
  zone : ∀ owner, owner ∈ d.zone ↔
    owner ∈ nodes ∨ ∃ name ∈ nodes, owner = hashedOwner d.apex (g.hash n3p name)
  out : d.out = chainRecords n3p d.apex (g.hash n3p) next types nodes ++
    listRecords d.apex b (List.range 16)

/-- Perl's orders leave nothing out and list nothing twice. -/
structure Signer.Orders (g : Signer) : Prop where
  keys : ∀ apex names, (g.keyOrder apex names).Perm names
  values : ∀ apex entries, (g.valueOrder apex entries).Perm entries

section

variable {g : Signer} {names : Names} {c : Controls}

theorem governs_unique {apex apex' name : Bytes} (h : Governs names apex name)
    (h' : Governs names apex' name) : apex = apex' :=
  Option.some_inj.mp ((controlOf_iff.mpr h).symm.trans (controlOf_iff.mpr h'))

theorem governs_self {apex : Bytes} (home : 6 ∈ names.types apex) : Governs names apex apex :=
  controlOf_iff.mp (if_pos home)

theorem mem_keys (memo : Memo names c)
    (found : ∀ dom, names.has dom = true → c.of dom = controlOf names dom) {apex : Bytes}
    (home : 6 ∈ names.types apex) {dom : Bytes} :
    dom ∈ c.keys apex ↔ names.has dom = true ∧ Governs names apex dom := by
  unfold Controls.keys
  rw [List.mem_map]
  constructor
  · rintro ⟨⟨a, d⟩, hpair, rfl⟩
    obtain ⟨hmem, hapex⟩ := List.mem_filter.mp hpair
    obtain rfl : a = apex := of_decide_eq_true hapex
    rcases (memo.zone a d).mp hmem with ⟨there, rfl⟩ | hof
    · exact ⟨there, governs_self home⟩
    · exact (of_iff memo found).mp hof
  · intro h
    exact ⟨(apex, dom), List.mem_filter.mpr
      ⟨(memo.zone apex dom).mpr (.inr ((of_iff memo found).mpr h)), decide_eq_true rfl⟩, rfl⟩

/-- The names that a zone's loop is run for, with those above them, are its nodes. -/
theorem exists_key_iff (memo : Memo names c)
    (found : ∀ dom, names.has dom = true → c.of dom = controlOf names dom) {apex : Bytes}
    (home : 6 ∈ names.types apex) {name : Bytes} :
    (∃ dom ∈ c.keys apex, name ∈ nodes apex dom) ↔ Node names apex name := by
  rw [node_iff]
  constructor
  · rintro ⟨dom, hdom, hname⟩
    obtain ⟨there, governs⟩ := (mem_keys memo found home).mp hdom
    exact ⟨dom, there, governs, hname⟩
  · rintro ⟨dom, there, governs, hname⟩
    exact ⟨dom, (mem_keys memo found home).mpr ⟨there, governs⟩, hname⟩

theorem key_node (memo : Memo names c)
    (found : ∀ dom, names.has dom = true → c.of dom = controlOf names dom) {apex : Bytes}
    (home : 6 ∈ names.types apex) {name : Bytes} (h : name ∈ c.keys apex) : Node names apex name := by
  obtain ⟨there, governs⟩ := (mem_keys memo found home).mp h
  exact ⟨governs, name, there, governs, List.mem_cons_self⟩

/-- The state that the loop for a zone starts in. -/
structure Ready (names : Names) (c : Controls) (apex : Bytes) (s : Hashing) : Prop where
  zone : s.zone = c.keys apex
  hashes : s.hashes = []
  fresh : ∀ name, Node names apex name → name ∉ s.hashed

theorem ready_walked {apex : Bytes} {s : Hashing} (hash : Bytes → Bytes) :
    Walked hash apex s [] s :=
  ⟨.refl s, List.nodup_nil, fun _ h => absurd h List.not_mem_nil⟩

/-- **What the loop for a zone prints.** -/
theorem signZone_chained (orders : g.Orders) (memo : Memo names c)
    (found : ∀ dom, names.has dom = true → c.of dom = controlOf names dom) {apex : Bytes}
    (home : 6 ∈ names.types apex) {n3p : Nsec3Param} {printed : List Generic} {s : Hashing}
    (ready : Ready names c apex s)
    (table : ∀ name, Node names apex name →
      s.names.types name = typesAfter printed name (names.types name)) {fuel : Nat} {p : Printing}
    {hashed : List Bytes} (run : signZone g n3p apex fuel s = some (p, hashed)) :
    (∃ nodes types next b, Chained g names n3p printed ⟨apex, p.zone, p.out⟩ nodes types next b) ∧
    (∀ name, name ∈ hashed ↔ name ∈ s.hashed ∨ Node names apex name) ∧
    ∀ name, p.names.types name = typesAfter p.out name (s.names.types name) := by
  unfold signZone at run
  obtain ⟨s₁, hhash, run⟩ := Option.bind_eq_some_iff.mp run
  obtain ⟨⟨b, round⟩, hround, run⟩ := Option.bind_eq_some_iff.mp run
  obtain ⟨hp, hhashed⟩ := Prod.mk.inj (Option.some_inj.mp run)
  have hkeys := orders.keys apex s.zone
  rw [ready.zone] at hkeys hhash
  have hnode : ∀ name, (∃ dom ∈ g.keyOrder apex (c.keys apex), name ∈ nodes apex dom) ↔
      Node names apex name := by
    intro name
    rw [← exists_key_iff memo found home]
    simp only [hkeys.mem_iff]
  obtain ⟨gens, walked, hgens⟩ := hashAll_walked
    (fun dom hdom name hname => ready.fresh name ((hnode name).mp ⟨dom, hdom, hname⟩))
    (ready_walked (g.hash n3p)) hhash
  have hgens : ∀ name, name ∈ gens ↔ Node names apex name := by
    intro name
    rw [hgens, or_iff_right List.not_mem_nil, hnode]
  have hhashes := walked.added.hashes
  rw [ready.hashes, List.nil_append] at hhashes
  -- The nodes, in the order in which their records are printed.
  obtain ⟨order, hperm, hvalues⟩ : ∃ order : List Bytes, order.Perm gens ∧
      g.valueOrder apex s₁.hashes = order.map fun name => (g.hash n3p name, name) := by
    have hentries := orders.values apex s₁.hashes
    refine ⟨(g.valueOrder apex s₁.hashes).map Prod.snd, ?_, ?_⟩
    · have hsnds := hentries.map Prod.snd
      rw [hhashes, List.map_map] at hsnds
      rw [hhashes]
      exact hsnds.trans (.of_eq (List.map_id gens))
    · have hself : ∀ e ∈ g.valueOrder apex s₁.hashes, id e = (g.hash n3p e.2, e.2) := by
        intro e he
        have he := hentries.mem_iff.mp he
        rw [hhashes] at he
        obtain ⟨name, -, rfl⟩ := List.mem_map.mp he
        rfl
      rw [List.map_map]
      exact (List.map_id _).symm.trans (List.map_congr_left hself)
  have hnodes : ∀ name, name ∈ order ↔ Node names apex name := fun name =>
    hperm.mem_iff.trans (hgens name)
  have hfsts : s₁.hashes.map Prod.fst = gens.map (g.hash n3p) := by
    rw [hhashes, List.map_map]
    rfl
  have hapart : (order.map (g.hash n3p)).Nodup := by
    rw [(hperm.map (g.hash n3p)).nodup_iff, ← hfsts]
    apply walked.added.apart
    rw [ready.hashes]
    exact List.nodup_nil
  have hsorted : sortKeys (s₁.hashes.map Prod.fst) = sortKeys (order.map (g.hash n3p)) := by
    rw [hfsts]
    exact sortKeys_congr hapart (hperm.map (g.hash n3p)).symm
  have hne : order.map (g.hash n3p) ≠ [] := by
    have hapex : apex ∈ order := (hnodes apex).mpr
      ⟨governs_self home, apex, has_of_type home, governs_self home, List.mem_cons_self⟩
    exact List.ne_nil_of_mem (List.mem_map_of_mem hapex)
  have hround : byNibble fuel (order.map (g.hash n3p)) = some (b, round) := by
    unfold byNibble at hround ⊢
    rwa [← hsorted]
  obtain ⟨first, last, asc⟩ := ascending_of_nodup hne hapart
  have hlinks : round = links (sortKeys (order.map (g.hash n3p))) := asc.byNibble_links hround
  have honce : order.Nodup := hperm.nodup_iff.mpr walked.once
  obtain ⟨types, hbitmap, hout, hzone, htypes⟩ := @foldl_nsec3Step n3p apex (g.hash n3p) round order honce
    ⟨s₁.names, s₁.zone, []⟩
  obtain ⟨hout', hzone', htypes'⟩ := @foldl_bucketStep apex b (List.range 16)
    ((g.valueOrder apex s₁.hashes).foldl (nsec3Step n3p apex round) ⟨s₁.names, s₁.zone, []⟩)
  rw [hp] at hout' hzone' htypes'
  rw [hvalues] at hout' hzone' htypes'
  rw [hout, List.nil_append] at hout'
  refine ⟨⟨order, types, fun name => (round.lookup (g.hash n3p name)).getD [], b, ?_⟩, ?_, ?_⟩
  · refine ⟨honce, hnodes, hapart, ?_, ⟨fuel, round, hround⟩, ?_, ?_, hout'⟩
    · intro name hname
      rw [hlinks]
      obtain ⟨n, hn⟩ := exists_link (mem_sortKeys.mpr (List.mem_map_of_mem hname))
      have hsome : ((links (sortKeys (order.map (g.hash n3p)))).lookup (g.hash n3p name)).isSome = true :=
        List.lookup_isSome_iff.mpr ⟨_, hn, beq_self_eq_true _⟩
      obtain ⟨n', hn'⟩ := Option.isSome_iff_exists.mp hsome
      obtain ⟨front, back, hsplit, -⟩ := List.lookup_eq_some_iff.mp hn'
      rw [hn', Option.getD_some, hsplit]
      exact List.mem_append_right front List.mem_cons_self
    · intro front name back hsplit
      have hname : Node names apex name :=
        (hnodes name).mp (hsplit ▸ List.mem_append_right front List.mem_cons_self)
      rw [hbitmap front name back hsplit, walked.added.types, table name hname, ← typesAfter_append]
    · intro owner
      rw [hzone', hzone, walked.added.zone, ready.zone, hgens, hnodes]
      exact or_congr_left (or_iff_right_of_imp (key_node memo found home))
  · intro name
    rw [← hhashed, walked.added.hashed, hgens]
  · intro name
    rw [htypes', htypes, walked.added.types, hout', typesAfter_append]

/-! ## All the zones -/

/-- Does a zone get NSEC3 records? -/
def Signer.signs (g : Signer) (apex : Bytes) : Bool := g.keys apex && (g.nsec3p apex).isSome

/-- A zone that gets NSEC3 records, and its parameters. -/
def Signer.Signs (g : Signer) (names : Names) (apex : Bytes) (n3p : Nsec3Param) : Prop :=
  6 ∈ names.types apex ∧ g.keys apex = true ∧ g.nsec3p apex = some n3p

/-- All the records that were printed for some zones. -/
def printedFor (done : List Signed) : List Generic := done.flatMap Signed.out

/-- The zones in front of the ones that are left have given none of the names of these a hash, and added
to their types what was printed. -/
structure Waiting (names : Names) (left : List Bytes) (s : Signing) : Prop where
  types : ∀ apex ∈ left, ∀ name, Node names apex name →
    s.names.types name = typesAfter (printedFor s.done) name (names.types name)
  hashed : ∀ name ∈ s.hashed, ∃ apex, apex ∉ left ∧ Node names apex name

/-- Each of some zones has its chain, when others have been printed before them. -/
def AllChained (g : Signer) (names : Names) (done new : List Signed) : Prop :=
  ∀ front d back, new = front ++ d :: back → ∃ n3p nodes types next b, g.Signs names d.apex n3p ∧
    Chained g names n3p (printedFor (done ++ front)) d nodes types next b

theorem AllChained.nil (done : List Signed) : AllChained g names done [] :=
  fun front _ _ h => absurd h.symm (List.append_ne_nil_of_right_ne_nil front (List.cons_ne_nil _ _))

theorem AllChained.append {done new more : List Signed} (h : AllChained g names done new)
    (h' : AllChained g names (done ++ new) more) : AllChained g names done (new ++ more) := by
  intro front d back hsplit
  rcases List.append_eq_append_iff.mp hsplit with ⟨behind, rfl, hmore⟩ | ⟨rest, hnew, hrest⟩
  · rw [← List.append_assoc]
    exact h' behind d back hmore
  · cases rest with
    | nil =>
      rw [List.nil_append] at hrest
      rw [List.append_nil] at hnew
      subst hnew
      have hfirst := h' [] d back hrest.symm
      rwa [List.append_nil] at hfirst
    | cons first rest =>
      obtain ⟨rfl, -⟩ := List.cons.inj hrest
      exact h front d rest hnew

theorem types_filter {names : Names} {keep : Bytes × List Nat → Bool} {name : Bytes}
    (kept : ∀ types, keep (name, types) = true) : Names.types (names.filter keep) name = names.types name := by
  induction names with
  | nil => rfl
  | cons rec names ih =>
    unfold Names.types at ih ⊢
    rw [List.filter_cons, List.lookup_cons]
    by_cases hname : name = rec.1
    · subst hname
      have hkeep : keep rec = true := kept rec.2
      rw [if_pos hkeep, List.lookup_cons, beq_self_eq_true]
    · rw [beq_eq_false_iff_ne.mpr hname]
      split
      · rw [List.lookup_cons, beq_eq_false_iff_ne.mpr hname]
        exact ih
      · exact ih

theorem Waiting.ready {apex : Bytes} {left : List Bytes} {s : Signing}
    (h : Waiting names (apex :: left) s) : Ready names c apex ⟨s.names, c.keys apex, [], s.hashed⟩ := by
  refine ⟨rfl, rfl, ?_⟩
  intro name hname hold
  obtain ⟨other, hother, hnode⟩ := h.hashed name hold
  exact hother (governs_unique hname.1 hnode.1 ▸ List.mem_cons_self)

/-- **One turn of the loop over the zones.** -/
theorem signStep_spec (orders : g.Orders) (memo : Memo names c)
    (found : ∀ dom, names.has dom = true → c.of dom = controlOf names dom)
    {apex : Bytes} {left : List Bytes} (nodup : (apex :: left).Nodup)
    (home : 6 ∈ names.types apex) {fuel : Nat} {s s' : Signing}
    (waiting : Waiting names (apex :: left) s) (run : signStep g c fuel s apex = some s') :
    Waiting names left s' ∧ ∃ new, s'.done = s.done ++ new ∧
      new.map Signed.apex = [apex].filter g.signs ∧ AllChained g names s.done new := by
  have habsent : apex ∉ left := (List.nodup_cons.mp nodup).1
  have hothers : ∀ z ∈ left, ∀ name, Node names z name → ¬ Node names apex name := by
    intro z hz name hname hapex
    exact habsent (governs_unique hapex.1 hname.1 ▸ hz)
  have hkeep : ∀ s₁ : Signing, s₁.hashed = s.hashed → s₁.done = s.done →
      (∀ z ∈ left, ∀ name, Node names z name → s₁.names.types name = s.names.types name) →
        Waiting names left s₁ := by
    intro s₁ hhashed hdone htypes
    refine ⟨fun z hz name hname => ?_, ?_⟩
    · rw [htypes z hz name hname, hdone]
      exact waiting.types z (List.mem_cons_of_mem apex hz) name hname
    · intro name hname
      obtain ⟨z, hz, hnode⟩ := waiting.hashed name (hhashed ▸ hname)
      exact ⟨z, List.not_mem_of_not_mem_cons hz, hnode⟩
  have hnone (s₁ : Signing) (hdone : s₁.done = s.done) (hsigns : g.signs apex = false) :
      ∃ new, s₁.done = s.done ++ new ∧ new.map Signed.apex = [apex].filter g.signs ∧
        AllChained g names s.done new := by
    refine ⟨[], by rw [hdone, List.append_nil], ?_, .nil s.done⟩
    rw [List.filter_cons_of_neg (Bool.eq_false_iff.mp hsigns)]
    rfl
  unfold signStep at run
  split at run
  · rename_i hkeys
    split at run
    · rename_i hparam
      cases run
      refine ⟨hkeep s rfl rfl fun _ _ _ _ => rfl, hnone s rfl ?_⟩
      rw [Signer.signs, hparam, Option.isSome_none, Bool.and_false]
    · rename_i n3p hparam
      obtain ⟨⟨p, hashed⟩, hzone, run⟩ := Option.bind_eq_some_iff.mp run
      cases run
      have hsigns : g.Signs names apex n3p := ⟨home, hkeys, hparam⟩
      obtain ⟨⟨nodes, types, next, b, hchain⟩, hhashed, htypes⟩ := signZone_chained orders memo found home
        waiting.ready (waiting.types apex List.mem_cons_self) hzone
      refine ⟨⟨?_, ?_⟩, [⟨apex, p.zone, p.out⟩], rfl, ?_, ?_⟩
      · intro z hz name hname
        have hprinted : printedFor (s.done ++ [⟨apex, p.zone, p.out⟩]) = printedFor s.done ++ p.out := by
          unfold printedFor
          rw [List.flatMap_append, List.flatMap_singleton]
        rw [htypes, hprinted, typesAfter_append, waiting.types z (List.mem_cons_of_mem apex hz) name hname]
      · intro name hname
        rcases (hhashed name).mp hname with hold | hnode
        · obtain ⟨z, hz, hnode⟩ := waiting.hashed name hold
          exact ⟨z, List.not_mem_of_not_mem_cons hz, hnode⟩
        · exact ⟨apex, habsent, hnode⟩
      · have hyes : g.signs apex = true := by
          rw [Signer.signs, hkeys, hparam, Option.isSome_some, Bool.and_true]
        rw [List.filter_cons_of_pos hyes]
        rfl
      · intro front d back hsplit
        obtain ⟨rfl, rfl⟩ : front = [] ∧ d = ⟨apex, p.zone, p.out⟩ := by
          cases front with
          | nil => exact ⟨rfl, (List.cons.inj hsplit).1.symm⟩
          | cons first front =>
            exact absurd (List.cons.inj hsplit).2.symm
              (List.append_ne_nil_of_right_ne_nil front (List.cons_ne_nil _ _))
        rw [List.append_nil]
        exact ⟨n3p, nodes, types, next, b, hsigns, hchain⟩
  · rename_i hkeys
    cases run
    refine ⟨hkeep _ rfl rfl ?_, hnone _ rfl ?_⟩
    swap
    · rw [Signer.signs, Bool.eq_false_iff.mpr hkeys, Bool.false_and]
    intro z hz name hname
    apply types_filter
    intro types
    exact decide_eq_true fun hmem => hothers z hz name hname (key_node memo found home hmem)

theorem foldlM_signStep (orders : g.Orders) (memo : Memo names c)
    (found : ∀ dom, names.has dom = true → c.of dom = controlOf names dom)
    {fuel : Nat} {zones : List Bytes} (nodup : zones.Nodup)
    (home : ∀ apex ∈ zones, 6 ∈ names.types apex) {s s' : Signing}
    (waiting : Waiting names zones s) (run : zones.foldlM (signStep g c fuel) s = some s') :
    ∃ new, s'.done = s.done ++ new ∧ new.map Signed.apex = zones.filter g.signs ∧
      AllChained g names s.done new := by
  induction zones generalizing s with
  | nil =>
    cases run
    exact ⟨[], (List.append_nil _).symm, rfl, .nil s'.done⟩
  | cons apex zones ih =>
    rw [List.foldlM_cons] at run
    obtain ⟨s₁, hstep, hrest⟩ := Option.bind_eq_some_iff.mp run
    obtain ⟨hwaiting, new₁, hdone₁, hapex₁, hchained₁⟩ := signStep_spec orders memo found nodup
      (home apex List.mem_cons_self) waiting hstep
    obtain ⟨new₂, hdone₂, hapex₂, hchained₂⟩ := ih (List.nodup_cons.mp nodup).2
      (fun z hz => home z (List.mem_cons_of_mem apex hz)) hwaiting hrest
    refine ⟨new₁ ++ new₂, by rw [hdone₂, hdone₁, List.append_assoc], ?_, hchained₁.append (hdone₁ ▸ hchained₂)⟩
    rw [List.map_append, hapex₁, hapex₂, ← List.filter_append]
    rfl

theorem waiting_start (names : Names) (zones : List Bytes) : Waiting names zones ⟨names, [], []⟩ :=
  ⟨fun _ _ _ _ => rfl, fun _ h => absurd h List.not_mem_nil⟩

/-- Two nodes never have one hash, and some hash has a leading nibble other than 0. -/
def Signer.Spreads (g : Signer) (names : Names) (apex : Bytes) (n3p : Nsec3Param) : Prop :=
  (∀ a b, Node names apex a → Node names apex b → g.hash n3p a = g.hash n3p b → a = b) ∧
    ∃ a, Node names apex a ∧ nib (g.hash n3p a) ≠ 0

/-- Seventeen rounds are enough for the loop over the empty buckets. -/
theorem byNibble_enough {hashes : List Bytes} {first last : Bytes} (asc : Ascending hashes first last)
    (spread : 0 < nib last) : ∃ made, byNibble 17 hashes = some made := by
  have inv := chainInv_foldl asc.sorted
  have hlt := nib_lt first
  rw [byNibble, inv.first, inv.prev, asc.head, asc.last]
  simp only [asc.fillEmpty_stops spread 17]
  rw [if_pos (by omega)]
  exact ⟨_, rfl⟩

theorem signZone_ends (orders : g.Orders) (memo : Memo names c)
    (found : ∀ dom, names.has dom = true → c.of dom = controlOf names dom) {apex : Bytes}
    (home : 6 ∈ names.types apex) {n3p : Nsec3Param} (spreads : g.Spreads names apex n3p) {s : Hashing}
    (ready : Ready names c apex s) : ∃ made, signZone g n3p apex 17 s = some made := by
  have hkeys := orders.keys apex s.zone
  rw [ready.zone] at hkeys
  have hnode : ∀ name, (∃ dom ∈ g.keyOrder apex s.zone, name ∈ nodes apex dom) ↔ Node names apex name := by
    intro name
    rw [← exists_key_iff memo found home, ready.zone]
    simp only [hkeys.mem_iff]
  have hfresh : ∀ dom ∈ g.keyOrder apex s.zone, ∀ name ∈ nodes apex dom, name ∉ s.hashed :=
    fun dom hdom name hname => ready.fresh name ((hnode name).mp ⟨dom, hdom, hname⟩)
  unfold signZone
  cases hhash : hashAll (g.hash n3p) apex (g.keyOrder apex s.zone) s with
  | none =>
    obtain ⟨a, b, hne, hsame, ha, hb⟩ :=
      hashAll_collision ready.hashes hfresh (ready_walked (g.hash n3p)) hhash
    have hb := (hnode b).mp (hb.resolve_left List.not_mem_nil)
    exact absurd (spreads.1 a b ((hnode a).mp ha) hb hsame) hne
  | some s₁ =>
    obtain ⟨gens, walked, hgens⟩ := hashAll_walked hfresh (ready_walked (g.hash n3p)) hhash
    obtain ⟨a, ha, hspread⟩ := spreads.2
    have hmem : g.hash n3p a ∈ s₁.hashes.map Prod.fst := by
      rw [walked.added.hashes, ready.hashes, List.nil_append, List.map_map]
      exact List.mem_map.mpr ⟨a, (hgens a).mpr (.inr ((hnode a).mpr ha)), rfl⟩
    have hapart : (s₁.hashes.map Prod.fst).Nodup := by
      apply walked.added.apart
      rw [ready.hashes]
      exact List.nodup_nil
    obtain ⟨first, last, asc⟩ := ascending_of_nodup (List.ne_nil_of_mem hmem) hapart
    have hle := asc.nib_le_last _ (mem_sortKeys.mpr hmem)
    obtain ⟨made, hmade⟩ := byNibble_enough asc (by omega)
    rw [Option.bind_eq_bind, Option.bind_some, hmade]
    exact ⟨_, rfl⟩

theorem foldlM_ends (orders : g.Orders) (memo : Memo names c)
    (found : ∀ dom, names.has dom = true → c.of dom = controlOf names dom)
    {zones : List Bytes} (nodup : zones.Nodup) (home : ∀ apex ∈ zones, 6 ∈ names.types apex)
    (spreads : ∀ apex n3p, g.Signs names apex n3p → g.Spreads names apex n3p) {s : Signing}
    (waiting : Waiting names zones s) : ∃ s', zones.foldlM (signStep g c 17) s = some s' := by
  induction zones generalizing s with
  | nil => exact ⟨s, rfl⟩
  | cons apex zones ih =>
    have hhome := home apex List.mem_cons_self
    have hstep : ∃ s₁, signStep g c 17 s apex = some s₁ := by
      unfold signStep
      split
      · rename_i hkeys
        split
        · exact ⟨s, rfl⟩
        · rename_i n3p hparam
          obtain ⟨⟨p, hashed⟩, hmade⟩ := signZone_ends orders memo found hhome
            (spreads apex n3p ⟨hhome, hkeys, hparam⟩) waiting.ready
          rw [hmade]
          exact ⟨_, rfl⟩
      · exact ⟨_, rfl⟩
    obtain ⟨s₁, hstep⟩ := hstep
    obtain ⟨hwaiting, -⟩ := signStep_spec orders memo found nodup hhome waiting hstep
    rw [List.foldlM_cons, hstep]
    exact ih (List.nodup_cons.mp nodup).2 (fun z hz => home z (List.mem_cons_of_mem apex hz)) hwaiting

/-- **The NSEC3 records that `tinydns-sign` prints.** Each zone with a key and parameters gets its own,
once: an NSEC3 record and a HASHREF record for each of its nodes, whose links go around the hashes of the
nodes in ascending order. A bitmap has the types of the node, and those of what was printed under its name
before. -/
theorem signZones_chained (orders : g.Orders)
    (nodup : (names.map Prod.fst).Nodup) {order : List Bytes} (perm : order.Perm (names.map Prod.fst))
    (control : controlAll names order = some c) {fuel : Nat} {s : Signing}
    (run : signZones g names c fuel = some s) :
    (s.done.map Signed.apex).Nodup ∧
      (∀ apex, apex ∈ s.done.map Signed.apex ↔ ∃ n3p, g.Signs names apex n3p) ∧
      ∀ earlier d later, s.done = earlier ++ d :: later → ∃ n3p nodes types next b,
        g.Signs names d.apex n3p ∧ Chained g names n3p (printedFor earlier) d nodes types next b := by
  obtain ⟨memo, found⟩ := controlAll_memo nodup perm control
  have home : ∀ apex, apex ∈ c.zones ↔ 6 ∈ names.types apex := by
    intro apex
    rw [memo.zones, of_iff memo found]
    exact ⟨fun h => h.2.1, fun hsoa => ⟨has_of_type hsoa, governs_self hsoa⟩⟩
  obtain ⟨new, hdone, hapex, hchained⟩ := foldlM_signStep orders memo found memo.zonesOnce
    (fun apex => (home apex).mp) (waiting_start names c.zones) run
  obtain rfl : new = s.done := hdone.symm
  refine ⟨?_, ?_, hchained⟩
  · rw [hapex]
    exact memo.zonesOnce.filter _
  · intro apex
    rw [hapex, List.mem_filter, home]
    unfold Signer.Signs Signer.signs
    rw [Bool.and_eq_true, Option.isSome_iff_exists]
    simp only [exists_and_left]

/-- Sums of characters for digests, and the orders as they are. -/
def plainSigner : Signer where
  sha1 s := List.replicate 20 (UInt8.ofNat s.sum)
  keys _ := true
  nsec3p _ := some ⟨0, 1, 0, []⟩
  keyOrder _ := id
  valueOrder _ := id

theorem plainSigner_orders : plainSigner.Orders := ⟨fun _ _ => .refl _, fun _ _ => .refl _⟩

/-- A zone `z` with a name in it, and below it a zone `a.z`. -/
def nestedZones : Names := [(ascii "z", [2, 6]), (ascii "w.z", [1]), (ascii "a.z", [2, 6])]

/-- What `findControl` leaves behind for them. -/
def nestedControls : Controls :=
  (nestedZones.map Prod.fst).foldl (findControl nestedZones) (.start nestedZones)

theorem nestedControls_eq : controlAll nestedZones (nestedZones.map Prod.fst) = some nestedControls :=
  if_neg (by decide)

theorem nestedZones_node {apex name : Bytes} (h : Node nestedZones apex name) :
    apex = ascii "z" ∧ name ∈ [ascii "z", ascii "w.z"] ∨ apex = ascii "a.z" ∧ name = ascii "a.z" := by
  obtain ⟨governs, dom, there, -, hname⟩ := h
  have hdoms : ∀ dom ∈ nestedZones.map Prod.fst, ∀ name ∈ dom :: ancestors dom,
      controlOf nestedZones name = some (ascii "z") ∧ name ∈ [ascii "z", ascii "w.z"] ∨
        controlOf nestedZones name = some (ascii "a.z") ∧ name = ascii "a.z" := by decide +kernel
  have hcontrol := controlOf_iff.mpr governs
  rcases hdoms dom (has_iff.mp there) name hname with ⟨happ, hmem⟩ | ⟨happ, hmem⟩
  · exact .inl ⟨Option.some_inj.mp (hcontrol.symm.trans happ), hmem⟩
  · exact .inr ⟨Option.some_inj.mp (hcontrol.symm.trans happ), hmem⟩

theorem node_self {apex : Bytes} (home : 6 ∈ names.types apex) : Node names apex apex :=
  ⟨governs_self home, apex, has_of_type home, governs_self home, List.mem_cons_self⟩

theorem plainSigner_spreads {apex : Bytes} {n3p : Nsec3Param}
    (signs : plainSigner.Signs nestedZones apex n3p) : plainSigner.Spreads nestedZones apex n3p := by
  obtain ⟨home, -, hparam⟩ := signs
  obtain rfl : (⟨0, 1, 0, []⟩ : Nsec3Param) = n3p := Option.some_inj.mp hparam
  have hapart : ∀ a ∈ [ascii "z", ascii "w.z"], ∀ b ∈ [ascii "z", ascii "w.z"],
      plainSigner.hash ⟨0, 1, 0, []⟩ a = plainSigner.hash ⟨0, 1, 0, []⟩ b → a = b := by decide +kernel
  have hself := node_self home
  constructor
  · intro a b ha hb
    rcases nestedZones_node ha with ⟨rfl, hmem⟩ | ⟨rfl, rfl⟩
    · exact hapart a hmem b ((nestedZones_node hb).resolve_right fun h => absurd h.1 (by decide)).2
    · exact fun _ => ((nestedZones_node hb).resolve_left fun h => absurd h.1 (by decide)).2.symm
  · refine ⟨apex, hself, ?_⟩
    rcases nestedZones_node hself with ⟨rfl, -⟩ | ⟨rfl, -⟩
    · decide
    · decide

/-- A run over both zones: the list that `z` has for the nibble 10 stands under the name of the other apex,
whose bitmap says so. -/
theorem signZones_chained_nestedZones : ∃ s types,
    signZones plainSigner nestedZones nestedControls 17 = some s ∧
      s.done.map Signed.apex = [ascii "z", ascii "a.z"] ∧
      (∃ d ∈ s.done, nsec3Record ⟨0, 1, 0, []⟩ (ascii "a.z") (List.replicate 20 221) (List.replicate 20 221)
        types ∈ d.out) ∧
      ∀ t, t ∈ types ↔ t ∈ [2, 6, 65282] := by
  have hzones : nestedControls.zones = [ascii "z", ascii "a.z"] := by decide +kernel
  obtain ⟨memo, found⟩ := controlAll_memo (by decide) (.refl _) nestedControls_eq
  have hhome : ∀ apex ∈ nestedControls.zones, 6 ∈ nestedZones.types apex :=
    fun apex happex => ((of_iff memo found).mp ((memo.zones apex).mp happex)).2.1
  obtain ⟨s, run⟩ := foldlM_ends plainSigner_orders memo found memo.zonesOnce hhome
    (fun apex n3p => plainSigner_spreads) (waiting_start nestedZones nestedControls.zones)
  obtain ⟨new, hnew, hapex, -⟩ := foldlM_signStep plainSigner_orders memo found memo.zonesOnce hhome
    (waiting_start nestedZones nestedControls.zones) run
  obtain rfl : new = s.done := hnew.symm
  rw [hzones] at hapex
  have hapex : s.done.map Signed.apex = [ascii "z", ascii "a.z"] := hapex
  obtain ⟨d₀, rest, hdone, hd₀, hrest⟩ := List.map_eq_cons_iff.mp hapex
  obtain ⟨d₁, rest, rfl, hd₁, hnil⟩ := List.map_eq_cons_iff.mp hrest
  obtain rfl := List.map_eq_nil_iff.mp hnil
  obtain ⟨-, -, hchains⟩ := signZones_chained plainSigner_orders (by decide) (.refl _) nestedControls_eq run
  obtain ⟨n3p₀, nodes₀, types₀, next₀, b₀, hsigns₀, hchain₀⟩ := hchains [] d₀ [d₁] hdone
  obtain rfl : (⟨0, 1, 0, []⟩ : Nsec3Param) = n3p₀ := Option.some_inj.mp hsigns₀.2.2
  obtain ⟨n3p, nodes, types, next, b, hsigns, hchain⟩ := hchains [d₀] d₁ [] hdone
  obtain rfl : (⟨0, 1, 0, []⟩ : Nsec3Param) = n3p := Option.some_inj.mp hsigns.2.2
  have hnodes : nodes = [ascii "a.z"] := by
    apply List.perm_singleton.mp
    refine (List.perm_ext_iff_of_nodup hchain.once (List.nodup_singleton _)).mpr fun name => ?_
    rw [hchain.node, hd₁, List.mem_singleton]
    constructor
    · exact fun h => ((nestedZones_node h).resolve_left fun h => absurd h.1 (by decide)).2
    · rintro rfl
      exact node_self (by decide)
  subst hnodes
  have hnext : next (ascii "a.z") = List.replicate 20 221 := by
    have haround := hchain.around (ascii "a.z") List.mem_cons_self
    rw [List.map_singleton, sortKeys, List.mergeSort_singleton] at haround
    exact (Prod.mk.inj (List.mem_singleton.mp haround)).2
  have hbitmap := hchain.bitmap [] (ascii "a.z") [] rfl
  refine ⟨s, types (ascii "a.z"), run, hapex, ⟨d₁, hdone ▸ List.mem_cons_of_mem d₀ List.mem_cons_self, ?_⟩, ?_⟩
  · rw [hchain.out, hd₁]
    refine List.mem_append_left _ (List.mem_flatMap.mpr ⟨ascii "a.z", List.mem_cons_self, ?_⟩)
    rw [hnext]
    exact List.mem_cons_self
  · intro t
    have htable : nestedZones.types (ascii "a.z") = [2, 6] := rfl
    have hprinted : printedFor [d₀] = d₀.out := List.flatMap_singleton ..
    rw [hbitmap, mem_typesAfter, htable, hprinted, chainRecords, List.flatMap_nil, List.append_nil, hchain₀.out,
      hd₀]
    constructor
    · rintro (hold | ⟨hentered, r, hr, howner, rfl⟩)
      · exact List.mem_append_left [65282] hold
      · rcases List.mem_append.mp hr with hr | hr
        · obtain ⟨n, -, hr⟩ := List.mem_flatMap.mp hr
          rcases List.mem_pair.mp hr with rfl | rfl
          · have hlong := congrArg List.length howner
            have htwenty : (plainSigner.hash ⟨0, 1, 0, []⟩ n).length = 20 := List.length_replicate
            unfold nsec3Record hashedOwner at hlong
            rw [Base32.Sign.base32hex_eq, List.length_append, List.length_append, List.length_append,
              Base32.encoding_length, htwenty] at hlong
            exact absurd hlong (by decide)
          · exact absurd rfl hentered
        · obtain ⟨nib, -, rfl⟩ := List.mem_map.mp hr
          simp
    · intro ht
      rcases List.mem_append.mp (show t ∈ [2, 6] ++ [65282] from ht) with hold | hlist
      · exact .inl hold
      · obtain rfl := List.mem_singleton.mp hlist
        exact .inr ⟨by decide, ⟨bucketOwner (ascii "z") 10, 65282, (deref b₀ 10).flatten.map UInt8.toNat⟩,
          List.mem_append_right _ (List.mem_map.mpr ⟨10, by decide, rfl⟩), rfl, rfl⟩

/-! ## When the loop ends -/

theorem Chained.spreads {n3p : Nsec3Param} {printed : List Generic} {d : Signed} {nodes : List Bytes}
    {types : Bytes → List Nat} {next : Bytes → Bytes} {b : Buckets}
    (h : Chained g names n3p printed d nodes types next b) : g.Spreads names d.apex n3p := by
  constructor
  · intro x y hx hy hsame
    exact List.inj_on_of_nodup_map h.apart ((h.node x).mpr hx) ((h.node y).mpr hy) hsame
  · by_contra hflat
    obtain ⟨fuel, round, hround⟩ := h.buckets
    have hne : nodes.map (g.hash n3p) ≠ [] := by
      intro hnil
      have hnone : byNibble fuel [] = none := by
        unfold byNibble sortKeys
        rw [List.mergeSort_nil]
        rfl
      rw [hnil, hnone] at hround
      cases hround
    obtain ⟨first, last, asc⟩ := ascending_of_nodup hne h.apart
    obtain ⟨name, hname, hlast⟩ := List.mem_map.mp (mem_sortKeys.mp asc.last_mem)
    refine nomatch (asc.byNibble_never ?_ fuel).symm.trans hround
    by_contra hzero
    exact hflat ⟨name, (h.node name).mp hname, hlast ▸ hzero⟩

/-- **When `tinydns-sign` gets through its zones**: in each zone that it signs no two nodes have one hash,
and not every hash begins with the nibble 0. -/
theorem signZones_ends_iff (orders : g.Orders)
    (nodup : (names.map Prod.fst).Nodup) {order : List Bytes} (perm : order.Perm (names.map Prod.fst))
    (control : controlAll names order = some c) : (∃ fuel s, signZones g names c fuel = some s) ↔
      ∀ apex n3p, g.Signs names apex n3p → g.Spreads names apex n3p := by
  obtain ⟨memo, found⟩ := controlAll_memo nodup perm control
  have home : ∀ apex, apex ∈ c.zones ↔ 6 ∈ names.types apex := by
    intro apex
    rw [memo.zones, of_iff memo found]
    exact ⟨fun h => h.2.1, fun hsoa => ⟨has_of_type hsoa, governs_self hsoa⟩⟩
  have hwaiting := waiting_start names c.zones
  constructor
  · rintro ⟨fuel, s, run⟩ apex n3p hsigns
    obtain ⟨new, -, hapex, hchained⟩ := foldlM_signStep orders memo found memo.zonesOnce
      (fun apex => (home apex).mp) hwaiting run
    have hmem : apex ∈ new.map Signed.apex := by
      rw [hapex, List.mem_filter, home]
      refine ⟨hsigns.1, ?_⟩
      rw [Signer.signs, hsigns.2.1, hsigns.2.2]
      rfl
    obtain ⟨d, hd, rfl⟩ := List.mem_map.mp hmem
    obtain ⟨front, back, hsplit⟩ := List.append_of_mem hd
    obtain ⟨n3p', nodes, types, next, b, hsigns', hchain⟩ := hchained front d back hsplit
    obtain rfl : n3p' = n3p := Option.some_inj.mp (hsigns'.2.2.symm.trans hsigns.2.2)
    exact hchain.spreads
  · intro spreads
    obtain ⟨s, run⟩ := foldlM_ends orders memo found memo.zonesOnce
      (fun apex => (home apex).mp) spreads hwaiting
    exact ⟨17, s, run⟩

/-- Digests that are all 0. -/
def flatSigner : Signer := { plainSigner with sha1 := fun _ => List.replicate 20 0 }

theorem signZones_ends_iff_nestedZones :
    (∃ fuel s, signZones plainSigner nestedZones nestedControls fuel = some s) ∧
      ¬ ∃ fuel s, signZones flatSigner nestedZones nestedControls fuel = some s := by
  constructor
  · exact (signZones_ends_iff plainSigner_orders (by decide) (.refl _) nestedControls_eq).mpr
      fun apex n3p => plainSigner_spreads
  · intro hends
    have hspreads := (signZones_ends_iff ⟨fun _ _ => .refl _, fun _ _ => .refl _⟩ (by decide) (.refl _)
      nestedControls_eq).mp hends
    obtain ⟨-, name, -, hnib⟩ := hspreads (ascii "z") ⟨0, 1, 0, []⟩ ⟨by decide, rfl, rfl⟩
    exact hnib (show nib (List.replicate 20 0) = 0 from rfl)

end

end TinyDnssec.Sign
