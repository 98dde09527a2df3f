import TinyDnssec.Lookup.Answers

/-!
# Two runs of `respond`

What an earlier reply has left behind does not matter to a later one. Two responses are twins when
they have the same octets and names; they may differ in `dpos`, where the last record begun in an
earlier reply had its data, and the place for a cut is not changed by a lookup in either. Two lookups
that differ in what the buffer `data` has behind a record, and start from twins, end in twins
(`doit_twin`), as long as no search of a hash list comes to an incomplete hash at its end (`Env.Whole`).

The converse is not established: two runs that read different octets may end alike.
-/

namespace TinyDnssec.Lookup

open Octets Loop

/-- The same octets and the same names, and the places for a cut that `t` says. -/
structure Twin (t : Nat × Nat) (r r' : Response) : Prop where
  bytes : r.bytes = r'.bytes
  names : r.names = r'.names
  target : r.tctarget = t.1
  target' : r'.tctarget = t.2

/-- Twins inside a record. -/
structure Abreast (t : Nat × Nat) (r r' : Response) : Prop extends Twin t r r' where
  dpos : r.dpos = r'.dpos

/-- Twins with the same variables beside them. -/
def TwinWith {α : Type} (t : Nat × Nat) (s s' : Response × α) : Prop := Twin t s.1 s'.1 ∧ s.2 = s'.2

variable {t : Nat × Nat} {r r' : Response}

theorem addbytes_twin (h : Twin t r r') (buf : Bytes) :
    InStep (fun s s' => Twin t s s' ∧ (r.dpos = r'.dpos → s.dpos = s'.dpos)) (Twin t)
      (addbytes buf r) (addbytes buf r') := by
  unfold addbytes
  rw [h.bytes]
  split
  · exact .error h
  · exact .ok ⟨⟨rfl, h.names, h.target, h.target'⟩, fun hdpos => hdpos⟩

theorem enter_twin (h : Twin t r r') (d : Name) :
    Twin t (enter d r) (enter d r') ∧ (r.dpos = r'.dpos → (enter d r).dpos = (enter d r').dpos) := by
  unfold enter
  rw [h.bytes, h.names]
  split
  · exact ⟨⟨rfl, rfl, h.target, h.target'⟩, fun hdpos => hdpos⟩
  · exact ⟨h, fun hdpos => hdpos⟩

theorem addname_twin (h : Twin t r r') (d : Name) :
    InStep (fun s s' => Twin t s s' ∧ (r.dpos = r'.dpos → s.dpos = s'.dpos)) (Twin t)
      (addname d r) (addname d r') := by
  induction d generalizing r r' with
  | nil => exact addbytes_twin h _
  | cons l d ih =>
    unfold addname
    rw [h.names]
    split
    · exact addbytes_twin h _
    · obtain ⟨hentered, hdpos⟩ := enter_twin h (l :: d)
      refine (addbytes_twin hentered _).bind fun s s' hs => ?_
      exact (ih hs.1).mono fun u u' hu => ⟨hu.1, fun hd => hu.2 (hs.2 (hdpos hd))⟩

theorem addbytes_abreast (h : Abreast t r r') (buf : Bytes) :
    InStep (Abreast t) (Twin t) (addbytes buf r) (addbytes buf r') :=
  (addbytes_twin h.toTwin buf).mono fun _ _ hs => ⟨hs.1, hs.2 h.dpos⟩

theorem addname_abreast (h : Abreast t r r') (d : Name) :
    InStep (Abreast t) (Twin t) (addname d r) (addname d r') :=
  (addname_twin h.toTwin d).mono fun _ _ hs => ⟨hs.1, hs.2 h.dpos⟩

/-- `response_rstart` brings twins abreast. -/
theorem rstart_twin (h : Twin t r r') (hidettl : Bool) (d : Name) (type : Bytes) (ttl : Nat) :
    InStep (Abreast t) (Twin t) (rstart hidettl d type ttl r) (rstart hidettl d type ttl r') := by
  unfold rstart
  refine (addname_twin h d).bind fun _ _ h => ?_
  refine (addbytes_twin h.1 _).bind fun _ _ h => ?_
  refine (addbytes_twin h.1 _).bind fun _ _ h => ?_
  refine (addbytes_twin h.1 _).bind fun _ _ h => ?_
  refine (addbytes_twin h.1 _).bind fun s s' h => ?_
  have hbytes := h.1.bytes
  exact .ok ⟨⟨hbytes, h.1.names, h.1.target, h.1.target'⟩, congrArg List.length hbytes⟩

theorem put_abreast (h : Abreast t r r') (field : Field) (f : Found) :
    InStep (fun s s' => s.1 = s'.1 ∧ Abreast t s.2 s'.2) (Twin t) (field.put f r) (field.put f r') := by
  cases field with
  | bytes len =>
    show InStep _ _ (dobytes len f r) (dobytes len f r')
    unfold dobytes
    split
    · exact .error h.toTwin
    · split
      · exact .error h.toTwin
      · exact (addbytes_abreast h _).bind fun _ _ hs => .ok ⟨rfl, hs⟩
  | name =>
    show InStep _ _ (doname f r) (doname f r')
    unfold doname
    split
    · exact .error h.toTwin
    · exact (addname_abreast h _).bind fun _ _ hs => .ok ⟨rfl, hs⟩
  | rest => exact (addbytes_abreast h _).bind fun _ _ hs => .ok ⟨rfl, hs⟩

theorem putAll_abreast (h : Abreast t r r') (shape : List Field) (f : Found) :
    InStep (Abreast t) (Twin t) (putAll shape f r) (putAll shape f r') := by
  induction shape generalizing f r r' with
  | nil => exact .ok h
  | cons field shape ih =>
    unfold putAll
    refine (put_abreast h field f).bind fun s s' hs => ?_
    obtain ⟨hf, hs⟩ := hs
    simp only [hf]
    exact ih hs _

theorem rfinish_twin (h : Abreast t r r') (s : Section) : Twin t (rfinish s r) (rfinish s r') := by
  refine ⟨?_, h.names, h.target, h.target'⟩
  unfold rfinish
  rw [h.bytes, h.dpos]

theorem emit_twin (h : Twin t r r') (owner : Name) (shape : List Field) (s : Section) (f : Found) :
    InStep (Twin t) (Twin t) (emit owner shape s f r) (emit owner shape s f r') := by
  unfold emit
  refine (rstart_twin h _ _ _ _).bind fun _ _ h => ?_
  refine (putAll_abreast h shape f).bind fun _ _ h => ?_
  exact .ok (rfinish_twin h s)

theorem want_twin (h : Twin t r r') (owner : Name) (type : Bytes) :
    want owner type r = want owner type r' := by
  unfold want
  rw [h.bytes]

/-- Writing over octets at a place. -/
theorem Twin.patch (h : Twin t r r') (pos : Nat) (f : Bytes → Bytes) :
    Twin t { r with bytes := Octets.patch r.bytes pos (f r.bytes) }
      { r' with bytes := Octets.patch r'.bytes pos (f r'.bytes) } := by
  refine ⟨?_, h.names, h.target, h.target'⟩
  rw [h.bytes]

/-! ## Denial of existence -/

/-- A search of the list for the digest compares it with complete hashes only: all of them are, or one
behind the first is not smaller than the digest, and the search stops there. -/
def Found.Whole (f : Found) (digest : Bytes) : Prop :=
  (f.data.length - f.dpos) % 20 = 0 ∨
    ∃ i, f.dpos + 20 * (i + 2) ≤ f.data.length ∧ digest ≤ hashAt f.data (f.dpos + 20 * (i + 1))

/-- So does the search of this call of `addNSEC3Cover`. -/
def Env.WholeList (env : Env) (name control : Name) (wild : Bool) : Prop :=
  ∀ p f, first hashParams (env.find control false) = some (some p) →
    some f ∈ env.find (nibbleLabel (env.digest p wild (lowerName name)) ::
      lowerTail name.length control) false →
    f.type = dnsTHashlist → f.Whole (env.digest p wild (lowerName name))

/-- The calls of `addNSEC3Cover` that a lookup of `q` may come to: behind the records of a wildcard, or
at the name's closest encloser. -/
inductive Env.Covers (env : Env) (q control : Name) : Name → Name → Bool → Prop
  | expanded {wild : Name} (below : wild <:+ q) (records : env.visible wild true ≠ []) :
      env.Covers q control (nextCloser wild q) control false
  | closer {name up hashName : Name} (enclosed : env.encloser q q = some (name, up, hashName)) :
      env.Covers q control name control false
  | wildcard {name up hashName : Name} (enclosed : env.encloser q q = some (name, up, hashName)) :
      env.Covers q control up control true
  | lowered {name up hashName : Name} (enclosed : env.encloser q q = some (name, up, hashName)) :
      env.Covers q control (lowerTail up.length name) (lowerTail up.length control) false

/-- The names that a lookup of `q` comes to along CNAME records. -/
inductive Env.Visits (env : Env) (qtype : Bytes) (q : Name) : Name → Prop
  | asked : env.Visits qtype q q
  | alias {d node target : Name} (visited : env.Visits qtype q d) (below : node <:+ d)
      (follows : lastFollowed qtype (env.visible node (decide (node ≠ d))) = some target) :
      env.Visits qtype q target

/-- No proof for this name searches an incomplete hash. -/
def Env.WholeAt (env : Env) (q : Name) : Prop :=
  ∀ z, env.zone q = some (some z) → z.flagsigned = true → ∀ name control wild,
    env.Covers q z.control name control wild → env.WholeList name control wild

/-- No search of a lookup reads behind a record. -/
def Env.Whole (env : Env) (qtype : Bytes) (q : Name) : Prop :=
  env.doDnssec = true → ∀ d, env.Visits qtype q d → env.WholeAt d

/-- The environment with something else behind the records. -/
def Env.withStale (env : Env) (stale : Bytes → Bytes) : Env := { env with stale := stale }

section

variable {env : Env} {stale : Bytes → Bytes}

@[simp] theorem withStale_doDnssec : (env.withStale stale).doDnssec = env.doDnssec := rfl

@[simp] theorem withStale_find (d : Name) (flagwild : Bool) :
    (env.withStale stale).find d flagwild = env.find d flagwild := rfl

@[simp] theorem withStale_wanted (qtype : Bytes) (f : Found) :
    (env.withStale stale).wanted qtype f = env.wanted qtype f := rfl

@[simp] theorem withStale_dnsRandom (draws n : Nat) :
    (env.withStale stale).dnsRandom draws n = env.dnsRandom draws n := rfl

theorem nsec3Step_twin (h : Twin t r r') (hashName : Name) (f : Found) :
    InStep (Twin t) (Twin t) (env.nsec3Step hashName f r)
      ((env.withStale stale).nsec3Step hashName f r') := by
  unfold Env.nsec3Step
  rw [withStale_doDnssec]
  split
  · exact emit_twin h _ _ _ _
  · split
    · exact emit_twin h _ _ _ _
    · exact .ok h

theorem addNSEC3_twin (h : Twin t r r') (hashName : Name) :
    InStep (Twin t) (Twin t) (env.addNSEC3 hashName r)
      ((env.withStale stale).addNSEC3 hashName r') := by
  unfold Env.addNSEC3
  rw [want_twin h]
  split
  · exact each_inStep h (fun _ _ h => h) fun f _ _ _ h => nsec3Step_twin h hashName f
  · exact .ok h

theorem noteHashref_twin (h : Twin t r r') (f : Found) (a : Answer) :
    InStep (TwinWith t) (Twin t) (env.noteHashref f (r, a))
      ((env.withStale stale).noteHashref f (r', a)) := by
  unfold Env.noteHashref
  rw [withStale_doDnssec]
  split
  · split
    · exact .error h
    · exact .ok ⟨h, rfl⟩
  · exact .ok ⟨h, rfl⟩

theorem answerStep_twin (h : Twin t r r') (q : Name) (qtype : Bytes) (f : Found) (a : Answer) :
    InStep (TwinWith t) (Twin t) (env.answerStep q qtype f (r, a))
      ((env.withStale stale).answerStep q qtype f (r', a)) := by
  unfold Env.answerStep
  simp only [withStale_wanted, withStale_doDnssec, withStale_dnsRandom]
  split
  · exact .ok ⟨h, rfl⟩
  · refine (noteHashref_twin h f _).bind ?_
    rintro ⟨r, a⟩ ⟨r', a'⟩ ⟨hr, ha⟩
    cases ha
    refine InStep.ite Iff.rfl (fun _ => .ok ⟨hr, rfl⟩) fun _ => ?_
    refine InStep.ite Iff.rfl (fun _ => .ok ⟨hr, rfl⟩) fun _ => ?_
    refine InStep.ite Iff.rfl (fun _ => .ok ⟨hr, rfl⟩) fun _ => ?_
    exact (emit_twin hr _ _ _ _).bind fun _ _ h => .ok ⟨h, rfl⟩

theorem addPool_twin (h : Twin t r r') (q : Name) (type : Bytes) (pool : Pool) :
    InStep (Twin t) (Twin t) (addPool q type pool r) (addPool q type pool r') :=
  each_inStep h (fun _ _ h => h) fun _ _ _ _ h => emit_twin h _ _ _ _

theorem answerNode_twin (h : Twin t r r') (q : Name) (qtype : Bytes) (wild : Name) (a : Answer) :
    InStep (TwinWith t) (Twin t) (env.answerNode q qtype wild (r, a))
      ((env.withStale stale).answerNode q qtype wild (r', a)) := by
  unfold Env.answerNode
  rw [withStale_find]
  refine InStep.bind (each_inStep (R := TwinWith t) ⟨h, rfl⟩ (fun _ _ h => h.1) ?_) ?_
  · rintro f ⟨r, a⟩ ⟨r', a'⟩ _ ⟨hr, ha⟩
    cases ha
    exact answerStep_twin hr q qtype f a
  · rintro ⟨r, a⟩ ⟨r', a'⟩ ⟨hr, ha⟩
    cases ha
    refine (addPool_twin hr _ _ _).bind fun _ _ h => ?_
    refine (addPool_twin h _ _ _).bind fun _ _ h => ?_
    exact .ok ⟨h, rfl⟩

theorem answers_twin (h : Twin t r r') (q : Name) (qtype : Bytes) (control wild : Name) (a : Answer) :
    InStep (TwinWith t) (Twin t) (env.answers q qtype control wild (r, a))
      ((env.withStale stale).answers q qtype control wild (r', a)) := by
  induction wild generalizing r r' a with
  | nil =>
    unfold Env.answers
    refine (answerNode_twin h q qtype [] a).bind ?_
    rintro ⟨r, a⟩ ⟨r', a'⟩ ⟨hr, ha⟩
    cases ha
    simp only []
    split
    · exact .ok ⟨hr, rfl⟩
    · exact .ok ⟨hr, rfl⟩
  | cons l up ih =>
    unfold Env.answers
    refine (answerNode_twin h q qtype (l :: up) a).bind ?_
    rintro ⟨r, a⟩ ⟨r', a'⟩ ⟨hr, ha⟩
    cases ha
    refine InStep.ite Iff.rfl (fun _ => .ok ⟨hr, rfl⟩) fun _ => ?_
    exact InStep.ite Iff.rfl (fun _ => .ok ⟨hr, rfl⟩) fun _ => ih hr a

/-! ## The authority section -/

theorem soaStep_twin (h : Twin t r r') (control : Name) (f : Found) (flaggavesoa : Bool) :
    InStep (TwinWith t) (Twin t) (env.soaStep control f (r, flaggavesoa))
      ((env.withStale stale).soaStep control f (r', flaggavesoa)) := by
  unfold Env.soaStep
  rw [withStale_doDnssec]
  split
  · exact (emit_twin h _ _ _ _).bind fun _ _ h => .ok ⟨h, rfl⟩
  · split
    · exact (emit_twin h _ _ _ _).bind fun _ _ h => .ok ⟨h, rfl⟩
    · exact .ok ⟨h, rfl⟩

theorem nsStep_twin (h : Twin t r r') (control : Name) (f : Found) (haveDs : Bool) :
    InStep (TwinWith t) (Twin t) (env.nsStep control f (r, haveDs))
      ((env.withStale stale).nsStep control f (r', haveDs)) := by
  unfold Env.nsStep
  rw [withStale_doDnssec]
  split
  · exact (emit_twin h _ _ _ _).bind fun _ _ h => .ok ⟨h, rfl⟩
  · split
    · exact (emit_twin h _ _ _ _).bind fun _ _ h => .ok ⟨h, rfl⟩
    · split
      · exact (emit_twin h _ _ _ _).bind fun _ _ h => .ok ⟨h, rfl⟩
      · exact .ok ⟨h, rfl⟩

theorem servers_twin (h : Twin t r r') (flagauthoritative : Bool) (control : Name) :
    InStep (Twin t) (Twin t) (env.servers flagauthoritative control r)
      ((env.withStale stale).servers flagauthoritative control r') := by
  unfold Env.servers
  rw [want_twin h, withStale_find, withStale_doDnssec]
  split
  · refine InStep.bind (each_inStep (R := TwinWith t) ⟨h, rfl⟩ (fun _ _ h => h.1) ?_) ?_
    · rintro f ⟨r, b⟩ ⟨r', b'⟩ _ ⟨hr, hb⟩
      cases hb
      exact nsStep_twin hr control f b
    rintro ⟨r, b⟩ ⟨r', b'⟩ ⟨hr, hb⟩
    cases hb
    simp only []
    split
    · have hadd := @addNSEC3_twin t r r' env stale hr control
      generalize env.addNSEC3 control r = x at hadd
      generalize (env.withStale stale).addNSEC3 control r' = y at hadd
      cases hadd with
      | ok h => exact .ok h
      | error h => exact .ok h
    · exact .ok hr
  · exact .ok h

theorem addOpt_twin (h : Twin t r r') :
    InStep (Twin t) (Twin t) (env.addOpt r) ((env.withStale stale).addOpt r') := by
  unfold Env.addOpt
  rw [withStale_doDnssec]
  split
  · refine (rstart_twin h _ _ _ _).bind fun s s' hs => .ok (rfinish_twin ?_ _)
    refine ⟨⟨?_, hs.names, hs.target, hs.target'⟩, hs.dpos⟩
    rw [hs.bytes, h.bytes]
  · exact .ok h

theorem addServer_twin (h : Twin t r r') (wantAddr : Name) :
    InStep (Twin t) (Twin t) (env.addServer wantAddr r)
      ((env.withStale stale).addServer wantAddr r') := by
  unfold Env.addServer
  rw [want_twin h, withStale_find]
  split
  · refine each_inStep h (fun _ _ h => h) fun f s s' _ h => ?_
    unfold Env.serverStep
    rw [withStale_doDnssec]
    split
    · exact emit_twin h _ _ _ _
    · split
      · exact emit_twin h _ _ _ _
      · split
        · exact emit_twin h _ _ _ _
        · exact .ok h
  · exact .ok h

theorem addServers_twin (h : Twin t r r') (arpos rounds bpos : Nat) :
    InStep (Twin t) (Twin t) (env.addServers arpos rounds bpos r)
      ((env.withStale stale).addServers arpos rounds bpos r') := by
  induction rounds generalizing bpos r r' with
  | zero => exact .ok h
  | succ rounds ih =>
    unfold Env.addServers
    rw [h.bytes]
    split
    · split
      · exact .error h
      · split
        · exact .error h
        · refine InStep.bind ?_ fun _ _ h => ih h _
          unfold Env.addServerOf
          split
          · split
            · exact .error h
            · exact addServer_twin h _
          · exact .ok h
    · exact .ok h

end

end TinyDnssec.Lookup
