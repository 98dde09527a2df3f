import TinyDnssec.Lookup.Find
import TinyDnssec.Response

/-!
# Writing records into the response

`want`, `dobytes` and `doname` of `tdlookup.c`, and the one way all of `doit` copies a record from the
database into the response: owner, type and ttl, then the data piece by piece, where names are
decoded and compressed anew.

`Emits` is what such a copy does to the message under construction, whatever the message is:
the record is the last of its section. Copies compose, so a loop around `find` emits the records
its turns emit.
-/

namespace TinyDnssec.Lookup

open Octets Loop

/-! ## `want` -/

/-- The loop of `want`, over the records behind the question. A record takes more than one octet,
so as many rounds as there are octets are enough. -/
def wantGo (buf : Bytes) (owner : Name) (type : Bytes) : Nat → Nat → Bool
  | 0, _ => true
  | rounds + 1, pos =>
    if pos < buf.length then
      match dnsPacketGetname buf pos with
      | none => false
      | some (d, pos) =>
        match dnsPacketCopy buf pos 10 with
        | none => false
        | some (x, pos) =>
          if dnsDomainEqual d owner && decide (type = x.take 2) then false
          else wantGo buf owner type rounds (pos + unbe (x.drop 8))
    else true

/-- The response has no record of this owner and type yet. -/
def want (owner : Name) (type : Bytes) (r : Response) : Bool :=
  match dnsPacketSkipname r.bytes 12 with
  | none => false
  | some pos => wantGo r.bytes owner type r.bytes.length (pos + 4)

/-! ## Copying data -/

def dobytes (len : Nat) (f : Found) (r : Response) : Except Response (Found × Response) :=
  if len > 20 then .error r
  else
    match dnsPacketCopy f.data f.dpos len with
    | none => .error r
    | some (buf, dpos) => do
      let r ← addbytes buf r
      .ok ({ f with dpos := dpos }, r)

def doname (f : Found) (r : Response) : Except Response (Found × Response) :=
  match dnsPacketGetname f.data f.dpos with
  | none => .error r
  | some (d1, dpos) => do
    let r ← addname d1 r
    .ok ({ f with dpos := dpos }, r)

/-- How a piece of a record's data is copied: `dobytes`, `doname`, or all that is left as it is. -/
inductive Field where
  | bytes (len : Nat)
  | name
  | rest

def Field.put : Field → Found → Response → Except Response (Found × Response)
  | .bytes len, f, r => dobytes len f r
  | .name, f, r => doname f r
  | .rest, f, r => do
    let r ← addbytes f.rdata r
    .ok (f, r)

def putAll : List Field → Found → Response → Build
  | [], _, r => .ok r
  | field :: fields, f, r => do
    let (f, r) ← field.put f r
    putAll fields f r

/-- `response_rstart`, the data, `response_rfinish`. -/
def emit (owner : Name) (shape : List Field) (s : Section) (f : Found) (r : Response) : Build := do
  let r ← rstart false owner f.type f.ttl r
  let r ← putAll shape f r
  .ok (rfinish s r)

def soaShape : List Field := [.name, .name, .bytes 20]

def rrsigShape : List Field := [.bytes 18, .name, .rest]

def mxShape : List Field := [.bytes 2, .name]

/-! ## What is copied -/

def Field.part : Field → Found → Option (Part × Found)
  | .bytes len, f =>
    if len > 20 then none
    else (dnsPacketCopy f.data f.dpos len).map fun (buf, dpos) => (.octets buf, { f with dpos := dpos })
  | .name, f => (dnsPacketGetname f.data f.dpos).map fun (d1, dpos) => (.name d1, { f with dpos := dpos })
  | .rest, f => some (.octets f.rdata, f)

/-- The data of a record in the pieces it is copied in, where it can be. -/
def partsOf : List Field → Found → Option (List Part)
  | [], _ => some []
  | field :: fields, f => do
    let (part, f) ← field.part f
    let parts ← partsOf fields f
    some (part :: parts)

/-- The record a copy adds. -/
def entryOf (owner : Name) (shape : List Field) (f : Found) : Option Entry :=
  (partsOf shape f).map fun parts => ⟨owner, f.type, dnsCIn, f.ttl, parts⟩

/-- **Records are added to a section**, and nothing else about the message changes. -/
def Emits (s : Section) (es : List Entry) (r r' : Response) : Prop :=
  ∀ question log, Idle r question log → log.Open s →
    Idle r' question (log.add s es) ∧ Extends r r'

theorem Emits.refl (s : Section) (r : Response) : Emits s [] r r := by
  intro question log h _
  rw [Log.add_nil]
  exact ⟨h, .refl r⟩

theorem Emits.trans {s : Section} {es fs : List Entry} {r r' r'' : Response} (h : Emits s es r r')
    (h' : Emits s fs r' r'') : Emits s (es ++ fs) r r'' := by
  intro question log hidle hopen
  obtain ⟨hmid, hext⟩ := h question log hidle hopen
  obtain ⟨hend, hext'⟩ := h' question _ hmid (Log.open_add hopen es)
  rw [Log.add_append]
  exact ⟨hend, hext.trans hext'⟩

/-- Inside a record, some pieces are added to its data. -/
def Adds (parts : List Part) (r r' : Response) : Prop :=
  ∀ r₀ question log pos e, Pending r₀ r question log pos e →
    Pending r₀ r' question log pos { e with rdata := e.rdata ++ parts }

theorem dobytes_spec {len : Nat} {f f' : Found} {r r' : Response}
    (h : dobytes len f r = .ok (f', r')) :
    ∃ buf, (Field.bytes len).part f = some (.octets buf, f') ∧ Adds [.octets buf] r r' := by
  unfold dobytes at h
  show ∃ buf, (if len > 20 then none else _) = _ ∧ _
  split at h
  · cases h
  · rename_i hlen
    split at h
    · cases h
    · rename_i buf dpos hcopy
      obtain ⟨r₁, hadd, h⟩ := bind_eq_ok.mp h
      cases h
      refine ⟨buf, ?_, fun _ _ _ _ _ hpending => hpending.addbytes hadd⟩
      rw [if_neg hlen, hcopy]
      rfl

theorem doname_spec {f f' : Found} {r r' : Response} (h : doname f r = .ok (f', r')) :
    ∃ d1, Field.name.part f = some (.name d1, f') ∧ Adds [.name d1] r r' := by
  unfold doname at h
  split at h
  · cases h
  · rename_i d1 dpos hread
    obtain ⟨r₁, hadd, h⟩ := bind_eq_ok.mp h
    cases h
    refine ⟨d1, ?_, fun _ _ _ _ _ hpending =>
      hpending.addname (dnsPacketGetname_valid hread) hadd⟩
    show (dnsPacketGetname f.data f.dpos).map _ = _
    rw [hread]
    rfl

theorem Field.put_spec {field : Field} {f f' : Found} {r r' : Response}
    (h : field.put f r = .ok (f', r')) :
    ∃ part, field.part f = some (part, f') ∧ Adds [part] r r' := by
  cases field with
  | bytes len =>
    obtain ⟨buf, hpart, hadds⟩ := dobytes_spec h
    exact ⟨_, hpart, hadds⟩
  | name =>
    obtain ⟨d1, hpart, hadds⟩ := doname_spec h
    exact ⟨_, hpart, hadds⟩
  | rest =>
    obtain ⟨r₁, hadd, h⟩ := bind_eq_ok.mp (show (addbytes f.rdata r >>= _) = _ from h)
    cases h
    exact ⟨_, rfl, fun _ _ _ _ _ hpending => hpending.addbytes hadd⟩

theorem putAll_spec {shape : List Field} {f : Found} {r r' : Response}
    (h : putAll shape f r = .ok r') :
    ∃ parts, partsOf shape f = some parts ∧ Adds parts r r' := by
  induction shape generalizing r f with
  | nil =>
    cases h
    refine ⟨[], rfl, fun _ _ _ _ e hpending => ?_⟩
    rwa [List.append_nil]
  | cons field shape ih =>
    unfold putAll at h
    obtain ⟨⟨f₁, r₁⟩, hfirst, h⟩ := bind_eq_ok.mp h
    obtain ⟨part, hpart, hadds⟩ := Field.put_spec hfirst
    obtain ⟨parts, hparts, hmore⟩ := ih h
    refine ⟨part :: parts, ?_, fun r₀ question log pos e hpending => ?_⟩
    · unfold partsOf
      rw [hpart]
      show (partsOf shape f₁).bind _ = _
      rw [hparts]
      rfl
    · have hpending := hmore _ _ _ _ _ (hadds _ _ _ _ _ hpending)
      rwa [List.append_assoc] at hpending

/-- **A copy emits one record**, whose data does not depend on the response. -/
theorem emit_emits {owner : Name} {shape : List Field} {s : Section} {f : Found} {r r' : Response}
    (valid : Valid owner) (two : f.type.length = 2) (h : emit owner shape s f r = .ok r') :
    ∃ e, entryOf owner shape f = some e ∧ Emits s [e] r r' := by
  unfold emit at h
  obtain ⟨r₁, hstart, h⟩ := bind_eq_ok.mp h
  obtain ⟨r₂, hput, h⟩ := bind_eq_ok.mp h
  cases h
  obtain ⟨parts, hparts, hadds⟩ := putAll_spec hput
  refine ⟨⟨owner, f.type, dnsCIn, f.ttl, parts⟩, ?_, fun question log idle isOpen => ?_⟩
  · unfold entryOf
    rw [hparts]
    rfl
  · obtain ⟨pos, hpending⟩ := rstart_spec idle valid two hstart
    have hpending := hadds _ _ _ _ _ hpending
    exact ⟨hpending.rfinish isOpen, hpending.extends s⟩

theorem emit_toList {owner : Name} {shape : List Field} {s : Section} {f : Found} {r r' : Response}
    (valid : Valid owner) (two : f.type.length = 2) (h : emit owner shape s f r = .ok r') :
    Emits s (entryOf owner shape f).toList r r' := by
  obtain ⟨e, he, hemits⟩ := emit_emits valid two h
  rw [he]
  exact hemits

/-- **A loop around `find` emits what its turns emit.** -/
theorem each_emits {α σ : Type} {response : σ → Response} {body : α → σ → Except Response σ}
    {entries : α → List Entry} {s : Section} {rs : List (Option α)} {t t' : σ}
    (step : ∀ f t t', some f ∈ rs → body f t = .ok t' →
      Emits s (entries f) (response t) (response t'))
    (h : each response body rs t = .ok t') :
    ∃ fs : List α, rs = fs.map some ∧ Emits s (fs.flatMap entries) (response t) (response t') := by
  refine each_run (P := fun done u => Emits s (done.flatMap entries) (response t) (response u))
    (.refl s _) (fun done f u u' hmem hdone hbody => ?_) h
  rw [List.flatMap_append, List.flatMap_singleton]
  exact hdone.trans (step f u u' hmem hbody)

/-! ## What `want` sees -/

/-- The message has a record of this owner, in any letter case, and this type. -/
def Has (log : Log) (owner : Name) (type : Bytes) : Prop :=
  ∃ e ∈ log.all, lowerName e.owner = lowerName owner ∧ e.type = type

theorem wantGo_iff {buf : Bytes} {owner : Name} (valid : Valid owner) {type : Bytes}
    {es : List Entry} {rounds pos : Nat} (entries : EntriesAt (memory buf) pos es buf.length)
    (enough : es.length ≤ rounds) :
    wantGo buf owner type rounds pos = true ↔
      ∀ e ∈ es, ¬(lowerName e.owner = lowerName owner ∧ e.type = type) := by
  induction es generalizing rounds pos with
  | nil =>
    have hpos : buf.length = pos := entries
    refine iff_of_true ?_ fun _ h => absurd h List.not_mem_nil
    cases rounds with
    | zero => rfl
    | succ rounds =>
      unfold wantGo
      exact if_neg (by omega)
  | cons e es ih =>
    obtain ⟨p, hentry, hrest⟩ := entries
    have hforward := hentry.forward
    have hlen := hrest.length_le
    obtain ⟨n, q, x, hread, hvalid, hlower, hcopy, htype, hstop⟩ := hentry.read
    obtain ⟨rounds, rfl⟩ := Nat.exists_eq_add_of_le' (show 1 ≤ rounds by
      rw [List.length_cons] at enough
      omega)
    have hequal : dnsDomainEqual n owner = true ↔ lowerName e.owner = lowerName owner := by
      rw [dnsDomainEqual_iff hvalid valid, hlower]
    unfold wantGo
    rw [if_pos (by omega), hread]
    simp only [hcopy, htype, hstop]
    rw [List.forall_mem_cons]
    split
    · rename_i hsame
      rw [Bool.and_eq_true, hequal, decide_eq_true_iff] at hsame
      exact iff_of_false Bool.false_ne_true fun h => h.1 ⟨hsame.1, hsame.2.symm⟩
    · rename_i hother
      rw [Bool.and_eq_true, hequal, decide_eq_true_iff] at hother
      rw [ih hrest (by rw [List.length_cons] at enough; omega)]
      refine (and_iff_right fun h => hother ⟨h.1, h.2.symm⟩).symm

/-- **`want` answers whether the message lacks such a record.** -/
theorem want_iff {r : Response} {question : Name} {log : Log} (idle : Idle r question log)
    {owner : Name} (valid : Valid owner) (type : Bytes) :
    want owner type r = true ↔ ¬Has log owner type := by
  obtain ⟨p, ⟨n, cost, hdec, _⟩, hentries⟩ := idle.message.body
  have hskip := dnsPacketSkipname_of_decodes hdec
  have hlen := hentries.length_le
  unfold want
  rw [hskip]
  show wantGo r.bytes owner type r.bytes.length (p + 4) = true ↔ _
  rw [wantGo_iff valid hentries (by omega)]
  unfold Has
  exact ⟨fun h ⟨e, he, hsame⟩ => h e he hsame, fun h e he hsame => h ⟨e, he, hsame⟩⟩

end TinyDnssec.Lookup
