import TinyDnssec.Query.Cached

/-!
# dnscache: what goes into a reply behind the question

Whatever `doit` of `query.c` puts into a reply once `rqa` has begun it, the octets behind the header
stay, and records come only to the end of the answer section. `Adds` says this of one step; it holds
of a record, of a loop over records, and of the two flags.

Which records come is not said here.
-/

namespace TinyDnssec.Dnscache

open Octets Loop

/-! ## The question -/

/-- A name that is longer than the names to come is no tail of them. -/
theorem addname_plain {d : Name} {r r' : Response}
    (longer : ∀ e ∈ r.names, dnsDomainLength d < dnsDomainLength e.1) (h : addname d r = .ok r') :
    r'.bytes = r.bytes ++ wire d := by
  induction d generalizing r with
  | nil =>
    obtain ⟨_, rfl⟩ := addbytes_eq_ok.mp h
    rfl
  | cons l d ih =>
    have unknown : (r.names.find? fun e => dnsDomainEqual (l :: d) e.1) = none := by
      rw [List.find?_eq_none]
      intro e mem equal
      rw [dnsDomainEqual, Bool.and_eq_true, decide_eq_true_eq] at equal
      have := longer e mem
      omega
    rw [addname, unknown] at h
    obtain ⟨r₁, hadd, h⟩ := bind_eq_ok.mp h
    obtain ⟨_, rfl⟩ := addbytes_eq_ok.mp hadd
    have entered : (enter (l :: d) r).bytes = r.bytes := by
      unfold enter
      split <;> rfl
    have shorter : dnsDomainLength d < dnsDomainLength (l :: d) := by
      unfold dnsDomainLength
      rw [wire_length, wire_length, span_cons]
      omega
    rw [ih ?_ h]
    · show (enter (l :: d) r).bytes ++ (UInt8.ofNat l.length :: l) ++ wire d = _
      rw [entered, List.append_assoc]
      rfl
    · intro e mem
      replace mem : e ∈ (enter (l :: d) r).names := mem
      unfold enter at mem
      split at mem
      · rcases List.mem_append.mp mem with mem | mem
        · exact shorter.trans (longer e mem)
        · rw [List.mem_singleton.mp mem]
          exact shorter
      · exact shorter.trans (longer e mem)

/-- The octets of the question, as the client has sent them. -/
def questionOctets (q : Name) (type cls : Bytes) : Bytes := wire q ++ type ++ cls

theorem responseQuery_octets {q : Name} {type cls : Bytes} {r r' : Response}
    (h : responseQuery q type cls r = .ok r') :
    questionOctets q type cls <+: r'.bytes.drop 12 := by
  simp only [responseQuery, bind_eq_ok, addbytes_eq_ok] at h
  obtain ⟨_, ⟨_, rfl⟩, r₁, hname, _, ⟨_, rfl⟩, _, ⟨_, rfl⟩, h⟩ := h
  cases h
  have named := addname_plain (fun e mem => absurd mem List.not_mem_nil) hname
  show _ <+: (r₁.bytes ++ type ++ cls).drop 12
  rw [named]
  exact List.prefix_refl _

/-! ## Steps of a reply -/

/-- What `r'` has behind `r`: only records of the answer section. -/
structure Added (question : Name) (log : Log) (r r' : Response) (rest : List TinyDnssec.Entry) :
    Prop where
  idle : Idle r' question (log.add .answer rest)
  behind : r.bytes.drop 12 <+: r'.bytes.drop 12

/-- A step that adds nothing but records of the answer section. -/
def Adds (more : Response → Build) : Prop :=
  ∀ ⦃r r' : Response⦄ ⦃question : Name⦄ ⦃log : Log⦄, Idle r question log → log.Open .answer →
    more r = .ok r' → ∃ rest, Added question log r r' rest

theorem Adds.ok : Adds .ok := by
  intro r r' question log idle _ h
  cases h
  refine ⟨[], ?_, List.prefix_refl _⟩
  rwa [Log.add_nil]

theorem Adds.bind {first second : Response → Build} (adds : Adds first) (adds' : Adds second) :
    Adds fun r => first r >>= second := by
  intro r r' question log idle isOpen h
  obtain ⟨r₁, one, two⟩ := bind_eq_ok.mp h
  obtain ⟨rest, idle₁, behind₁⟩ := adds idle isOpen one
  obtain ⟨rest', idle₂, behind₂⟩ := adds' idle₁ (Log.open_add isOpen rest) two
  refine ⟨rest ++ rest', ?_, behind₁.trans behind₂⟩
  rwa [Log.add_append]

/-- A choice that does not look at the reply. -/
theorem Adds.ite {p : Prop} [Decidable p] {first second : Response → Build} (adds : Adds first)
    (adds' : Adds second) : Adds fun r => if p then first r else second r := by
  by_cases hp : p
  · simp only [if_pos hp]
    exact adds
  · simp only [if_neg hp]
    exact adds'

theorem Adds.fold {α : Type} {step : α → Response → Build} (xs : List α)
    (each : ∀ x ∈ xs, Adds (step x)) : Adds fun r => xs.foldlM (fun r x => step x r) r := by
  induction xs with
  | nil => exact Adds.ok
  | cons x xs ih =>
    exact Adds.bind (each x List.mem_cons_self) (ih fun y mem => each y (List.mem_cons_of_mem _ mem))

section Records

variable {hidettl : Bool} {d : Name} {type : Bytes} {ttl : Nat}

/-- A record that is begun, filled and closed. -/
theorem pending_added {r₀ r : Response} {question : Name} {log : Log} {f : Nat}
    {e : TinyDnssec.Entry} (pending : Pending r₀ r question log f e) (isOpen : log.Open .answer) :
    Added question log r₀ (rfinish .answer r) [e] :=
  ⟨pending.rfinish isOpen, (pending.extends .answer).records⟩

theorem addRecord_adds (valid : Valid d) (two : type.length = 2) {parts : List Part}
    (names : ∀ n, .name n ∈ parts → Valid n) : Adds (addRecord hidettl d type ttl parts) := by
  intro r r' question log idle isOpen h
  obtain ⟨r₁, hstart, h⟩ := bind_eq_ok.mp h
  obtain ⟨r₂, hparts, h⟩ := bind_eq_ok.mp h
  cases Except.ok.inj h
  obtain ⟨f, pending⟩ := rstart_spec idle valid two hstart
  exact ⟨_, pending_added (addParts_pending names pending hparts) isOpen⟩

theorem addRecords_adds (valid : Valid d) (two : type.length = 2) {rdatas : List (List Part)}
    (names : ∀ parts ∈ rdatas, ∀ n, .name n ∈ parts → Valid n) :
    Adds (addRecords hidettl d type ttl rdatas) :=
  Adds.fold rdatas fun parts mem => addRecord_adds valid two (names parts mem)

theorem responseCname_added {target : Name} (valid : Valid d) (valid' : Valid target)
    {r r' : Response} {question : Name} {log : Log} (idle : Idle r question log)
    (isOpen : log.Open .answer) (h : responseCname hidettl d target ttl r = .ok r') :
    Added question log r r' [replyEntry hidettl d dnsTCname ttl [.name target]] := by
  obtain ⟨r₁, hstart, h⟩ := bind_eq_ok.mp h
  obtain ⟨r₂, hname, h⟩ := bind_eq_ok.mp h
  cases Except.ok.inj h
  obtain ⟨f, pending⟩ := rstart_spec idle valid (by rfl) hstart
  exact pending_added (pending.addname valid' hname) isOpen

theorem responseCname_adds {target : Name} (valid : Valid d) (valid' : Valid target) :
    Adds (responseCname hidettl d target ttl) := by
  intro r r' question log idle isOpen h
  exact ⟨_, responseCname_added valid valid' idle isOpen h⟩

end Records

/-! ## Flags -/

theorem flagged_added {r r' : Response} {question : Name} {log : Log} (idle : Idle r question log)
    {pos : Nat} {s : Bytes} (bytes : r'.bytes = patch r.bytes pos s) (names : r'.names = r.names)
    (inside : pos + s.length ≤ 4) : Added question log r r' [] := by
  have header := idle.header
  have length : r'.bytes.length = r.bytes.length := bytes ▸ patch_length (by omega)
  have agree : ∀ i, 6 ≤ i → r'.bytes[i]? = r.bytes[i]? := by
    intro i behind
    rw [bytes]
    exact getElem?_patch (by omega) (.inr (by omega))
  constructor
  · rw [Log.add_nil]
    exact idle.of_bytes length agree names
  · have same : r'.bytes.drop 12 = r.bytes.drop 12 := by
      apply List.ext_getElem?
      intro i
      rw [List.getElem?_drop, List.getElem?_drop, agree (12 + i) (by omega)]
    rw [same]

theorem servfail_adds : Adds fun r => .ok (servfail r) := by
  intro r r' question log idle _ h
  cases h
  exact ⟨[], flagged_added idle rfl rfl (Nat.le_refl 4)⟩

theorem nxdomain_adds : Adds fun r => .ok (nxdomain r) := by
  intro r r' question log idle _ h
  cases h
  exact ⟨[], flagged_added idle rfl rfl (Nat.le_refl 4)⟩

/-! ## The answers of a packet -/

/-- The data of a record that is in hand. -/
theorem answerData_pending {buf type : Bytes} {pos datalen : Nat} {r₀ r r' : Response}
    {question : Name} {log : Log} {f : Nat} {e : TinyDnssec.Entry}
    (pending : Pending r₀ r question log f e) (h : answerData buf type pos datalen r = .ok r') :
    ∃ e', Pending r₀ r' question log f e' := by
  have named : ∀ {pos next : Nat} {n : Name} {r r' : Response} {e : TinyDnssec.Entry},
      Pending r₀ r question log f e → dnsPacketGetname buf pos = some (n, next) →
        addname n r = .ok r' → ∃ e', Pending r₀ r' question log f e' :=
    fun pending hname hadd => ⟨_, pending.addname (dnsPacketGetname_valid hname) hadd⟩
  unfold answerData at h
  split at h
  · split at h
    · cases h
    · rename_i hname
      exact named pending hname h
  · split at h
    · split at h
      · cases h
      · obtain ⟨r₁, hadd, h⟩ := bind_eq_ok.mp h
        have pending := pending.addbytes hadd
        split at h
        · cases h
        · rename_i hname
          exact named pending hname h
    · split at h
      · split at h
        · cases h
        · rename_i hname
          obtain ⟨r₁, hadd, h⟩ := bind_eq_ok.mp h
          obtain ⟨e₁, pending⟩ := named pending hname hadd
          split at h
          · cases h
          · rename_i hname'
            obtain ⟨r₂, hadd', h⟩ := bind_eq_ok.mp h
            obtain ⟨e₂, pending⟩ := named pending hname' hadd'
            split at h
            · cases h
            · exact ⟨_, pending.addbytes h⟩
      · split at h
        · cases h
        · exact ⟨_, pending.addbytes h⟩

theorem Looked.type_length {buf : Bytes} {pos : Nat} {x : Looked} (h : look buf pos = some x) :
    x.header.type.length = 2 := by
  show (x.fixed.take 2).length = 2
  rw [List.length_take, (look_fixed h).1]
  rfl

theorem look_valid {buf : Bytes} {pos : Nat} {x : Looked} (h : look buf pos = some x) :
    Valid x.owner := by
  unfold look at h
  split at h
  · cases h
  · rename_i hname
    split at h
    · cases h
    · cases h
      exact dnsPacketGetname_valid hname

theorem answerLoop_adds (hidettl : Bool) (buf : Bytes) (d : Name) (dtype : Bytes) (n pos : Nat) :
    Adds (answerLoop hidettl buf d dtype n pos) := by
  induction n generalizing pos with
  | zero => exact Adds.ok
  | succ n ih =>
    intro r r' question log idle isOpen h
    rw [answerLoop] at h
    split at h
    · cases h
    · rename_i x hx
      split at h
      · obtain ⟨r₁, hstart, h⟩ := bind_eq_ok.mp h
        obtain ⟨r₂, hdata, h⟩ := bind_eq_ok.mp h
        obtain ⟨f, pending⟩ := rstart_spec idle (look_valid hx) (Looked.type_length hx) hstart
        obtain ⟨e, pending⟩ := answerData_pending pending hdata
        obtain ⟨idle₁, behind₁⟩ := pending_added pending isOpen
        obtain ⟨rest, idle₂, behind₂⟩ := ih x.next idle₁ (Log.open_add isOpen [e]) h
        refine ⟨e :: rest, ?_, behind₁.trans behind₂⟩
        rwa [← Log.add_append, List.singleton_append] at idle₂
      · exact ih x.next idle isOpen h

/-! ## What is cached, and what is known -/

theorem decodeNames_valid {data : Bytes} {rounds pos : Nat} {n : Name}
    (mem : n ∈ decodeNames data rounds pos) : Valid n := by
  fun_induction decodeNames data rounds pos with
  | case1 pos => exact absurd mem List.not_mem_nil
  | case2 rounds pos hname => exact absurd mem List.not_mem_nil
  | case3 rounds pos t2 next hname ih =>
    rcases List.mem_cons.mp mem with rfl | mem
    · exact dnsPacketGetname_valid hname
    · exact ih mem

theorem decodeMx_valid {data : Bytes} {rounds pos : Nat} {parts : List Part} {n : Name}
    (mem : parts ∈ decodeMx data rounds pos) (name : .name n ∈ parts) : Valid n := by
  fun_induction decodeMx data rounds pos with
  | case1 pos => exact absurd mem List.not_mem_nil
  | case2 rounds pos hcopy => exact absurd mem List.not_mem_nil
  | case3 rounds pos misc next hcopy hname => exact absurd mem List.not_mem_nil
  | case4 rounds pos misc next hcopy t2 next' hname ih =>
    rcases List.mem_cons.mp mem with rfl | mem
    · simp only [List.mem_cons, reduceCtorEq, Part.name.injEq, List.not_mem_nil, or_false,
        false_or] at name
      exact name ▸ dnsPacketGetname_valid hname
    · exact ih mem

theorem decodeSoa_valid {data : Bytes} {rounds pos : Nat} {parts : List Part} {n : Name}
    (mem : parts ∈ decodeSoa data rounds pos) (name : .name n ∈ parts) : Valid n := by
  fun_induction decodeSoa data rounds pos with
  | case1 pos => exact absurd mem List.not_mem_nil
  | case2 rounds pos hcopy => exact absurd mem List.not_mem_nil
  | case3 rounds pos misc next hcopy hname => exact absurd mem List.not_mem_nil
  | case4 rounds pos misc next hcopy t2 next' hname hname' => exact absurd mem List.not_mem_nil
  | case5 rounds pos misc next hcopy t2 next' hname t3 next'' hname' ih =>
    rcases List.mem_cons.mp mem with rfl | mem
    · simp only [List.mem_cons, reduceCtorEq, Part.name.injEq, List.not_mem_nil, or_false] at name
      rcases name with rfl | rfl
      · exact dnsPacketGetname_valid hname
      · exact dnsPacketGetname_valid hname'
    · exact ih mem

/-- Whatever string is cached, the names it is read back as are names. -/
theorem decode_valid {type data : Bytes} {rdatas : List (List Part)}
    (h : decode type data = some rdatas) {parts : List Part} (mem : parts ∈ rdatas) {n : Name}
    (name : .name n ∈ parts) : Valid n := by
  have plain : ∀ items : List Bytes, parts ∈ items.map (fun a => [Part.octets a]) → Valid n := by
    intro items mem
    obtain ⟨a, _, rfl⟩ := List.mem_map.mp mem
    cases List.mem_singleton.mp name
  unfold decode at h
  split at h
  · cases h
    obtain ⟨t2, hmem, rfl⟩ := List.mem_map.mp mem
    cases List.mem_singleton.mp name
    exact decodeNames_valid hmem
  · split at h
    · cases h
      exact decodeMx_valid mem name
    · split at h
      · cases h
        exact decodeSoa_valid mem name
      · split at h
        · cases h
          exact plain _ mem
        · split at h
          · cases h
            exact plain _ mem
          · obtain ⟨items, _, rfl⟩ := Option.map_eq_some_iff.mp h
            exact plain _ mem

def partName : Part → Option Name
  | .name n => some n
  | .octets _ => none

/-- The names that are served without asking are answered with names. -/
theorem special_valid {d : Name} {x : Special} (h : special d = some x) :
    x.type.length = 2 ∧ ∀ n, .name n ∈ x.parts → Valid n := by
  have all : ∀ x ∈ specials, x.type.length = 2 ∧ ∀ n ∈ x.parts.filterMap partName, Valid n := by
    decide +kernel
  obtain ⟨two, names⟩ := all x (List.mem_of_find?_eq_some h)
  exact ⟨two, fun n mem => names n (List.mem_filterMap.mpr ⟨.name n, mem, rfl⟩)⟩

end TinyDnssec.Dnscache
