import TinyDnssec.Lookup.Doit

/-!
# What the parts of `doit` add

Each part of `doit` behind the answer loop adds records to one section: the denial and the
delegation to the authority section, `finish` to the additional one. `finish_spec` is what a sender
relies on: whatever is dropped at the end to make a response fit, the answer section is not, and with
DNSSEC neither is the authority section.

One path is left out here: a referral that lacks DS records goes on after `addNSEC3` has failed.
-/

namespace TinyDnssec.Lookup

open Octets Loop

variable {env : Env}

/-- Some records are added to a section. -/
def EmitsSome (s : Section) (r r' : Response) : Prop := ∃ es, Emits s es r r'

theorem EmitsSome.refl (s : Section) (r : Response) : EmitsSome s r r := ⟨[], .refl s r⟩

theorem EmitsSome.trans {s : Section} {r r' r'' : Response} (h : EmitsSome s r r')
    (h' : EmitsSome s r' r'') : EmitsSome s r r'' := by
  obtain ⟨es, hes⟩ := h
  obtain ⟨fs, hfs⟩ := h'
  exact ⟨es ++ fs, hes.trans hfs⟩

theorem emit_some {owner : Name} {shape : List Field} {s : Section} {f : Found} {r r' : Response}
    (valid : Valid owner) (two : f.type.length = 2) (h : emit owner shape s f r = .ok r') :
    EmitsSome s r r' :=
  ⟨_, emit_toList valid two h⟩

theorem each_some {α σ : Type} {response : σ → Response} {body : α → σ → Except Response σ}
    {s : Section} {rs : List (Option α)} {t t' : σ}
    (step : ∀ f t t', some f ∈ rs → body f t = .ok t' → EmitsSome s (response t) (response t'))
    (h : each response body rs t = .ok t') : EmitsSome s (response t) (response t') := by
  obtain ⟨_, _, hsome⟩ := each_run (P := fun _ u => EmitsSome s (response t) (response u)) (.refl s _)
    (fun _ f u u' hmem hdone hbody => hdone.trans (step f u u' hmem hbody)) h
  exact hsome

/-! ## The additional section -/

theorem rstart_root_length {hide : Bool} {type : Bytes} (two : type.length = 2) {ttl : Nat}
    {r r' : Response} (h : rstart hide [] type ttl r = .ok r') :
    r'.bytes.length = r.bytes.length + 11 := by
  simp only [rstart, addname, bind_eq_ok, addbytes_eq_ok] at h
  obtain ⟨_, ⟨_, rfl⟩, _, ⟨_, rfl⟩, _, ⟨_, rfl⟩, _, ⟨_, rfl⟩, _, ⟨_, rfl⟩, h⟩ := h
  cases h
  simp only [List.length_append, two, be32_length, List.length_cons, List.length_nil,
    show dnsCIn.length = 2 from rfl]

/-- The OPT record is a record, once its class is filled in. -/
theorem addOpt_some {r r' : Response} (h : env.addOpt r = .ok r') : EmitsSome .additional r r' := by
  unfold Env.addOpt at h
  split at h
  · obtain ⟨r₁, hstart, h⟩ := bind_eq_ok.mp h
    cases h
    refine ⟨[⟨[], dnsTOpt, be16 512, 32768, []⟩], fun question log idle isOpen => ?_⟩
    have hlen := rstart_root_length rfl hstart
    obtain ⟨f, hpending⟩ := rstart_spec idle Valid.nil rfl hstart
    have hend : r₁.bytes.length = f + 10 := hpending.parts
    have hf : r.bytes.length + 3 = f + 2 := by omega
    have hpatched := hpending.patchCls (be16_length 512)
    rw [hf]
    exact ⟨hpatched.rfinish isOpen, hpatched.extends .additional⟩
  · cases h
    exact .refl _ _

theorem serverStep_some {wantAddr : Name} (valid : Valid wantAddr) {f : Found}
    (two : f.type.length = 2) {r r' : Response} (h : env.serverStep wantAddr f r = .ok r') :
    EmitsSome .additional r r' := by
  unfold Env.serverStep at h
  split at h
  · exact emit_some valid two h
  · split at h
    · exact emit_some valid two h
    · split at h
      · exact emit_some valid two h
      · cases h
        exact .refl _ _

theorem addServer_some {wantAddr : Name} (valid : Valid wantAddr) {r r' : Response}
    (h : env.addServer wantAddr r = .ok r') : EmitsSome .additional r r' := by
  unfold Env.addServer at h
  split at h
  · apply each_some _ h
    intro f t t' hmem hbody
    exact serverStep_some valid (found_read valid.labels hmem).typeOctets hbody
  · cases h
    exact .refl _ _

theorem addServerOf_some {sent type : Bytes} {bpos : Nat} {r r' : Response}
    (h : env.addServerOf sent type bpos r = .ok r') : EmitsSome .additional r r' := by
  unfold Env.addServerOf at h
  split at h
  · split at h
    · cases h
    · rename_i hread
      exact addServer_some (dnsPacketGetname_valid hread).lower h
  · cases h
    exact .refl _ _

theorem addServers_some {arpos rounds bpos : Nat} {r r' : Response}
    (h : env.addServers arpos rounds bpos r = .ok r') : EmitsSome .additional r r' := by
  induction rounds generalizing bpos r with
  | zero =>
    cases h
    exact .refl _ _
  | succ rounds ih =>
    unfold Env.addServers at h
    split at h
    · split at h
      · cases h
      · split at h
        · cases h
        · obtain ⟨r₁, hserver, h⟩ := bind_eq_ok.mp h
          exact (addServerOf_some hserver).trans (ih h)
    · cases h
      exact .refl _ _

/-! ## Shortening -/

theorem Log.add_without {log : Log} {s : Section} (empty : log.part s = []) (es : List Entry) :
    (log.add s es).without s = log := by
  obtain ⟨answer, authority, additional⟩ := log
  cases s <;> cases empty <;> rfl

/-- Cutting a message back to where a section began leaves the message from before. -/
theorem cutBack_message {r₀ r : Response} {question : Name} {log₀ log : Log} {s : Section}
    (idle₀ : Idle r₀ question log₀) (counts : Counts (memory r.bytes) log)
    (agree : ∀ i, 12 ≤ i → i < r₀.bytes.length → r.bytes[i]? = r₀.bytes[i]?)
    (reach : r₀.bytes.length ≤ r.bytes.length) (before : log.without s = log₀) :
    Says (cutBack s r₀.bytes.length r).bytes question log₀ := by
  have hs := s.offset_bounds
  refine idle₀.message_of_agree (cutBack_length s idle₀.header reach) (fun i lo hi => ?_) ?_
  · rw [getElem?_cutBack s idle₀.header reach hi (.inr (by omega)), agree i lo hi]
  · rw [← before]
    exact counts_cutBack counts s idle₀.header reach

/-- What `finish` leaves of a message. -/
structure Finished (dnssec : Bool) (r r' : Response) (question : Name) (log log' : Log) : Prop where
  message : Says r'.bytes question log'
  flags : ∀ i, i < 6 → r'.bytes[i]? = r.bytes[i]?
  answer : log'.answer = log.answer
  authority : log'.authority = log.authority ∨ dnssec = false ∧ log'.authority = []

theorem shorten_spec {flagauthoritative : Bool} {r₀ r r₂ : Response} {question : Name} {log : Log}
    (idle₀ : Idle r₀ question (log.without .authority)) (idle : Idle r question log)
    (grown : Extends r₀ r) (empty : log.additional = []) {es : List Entry}
    (idle₂ : Idle r₂ question (log.add .additional es)) (grown₂ : Extends r r₂) :
    ∃ log', Finished env.doDnssec r
      (env.shorten flagauthoritative r₀.bytes.length r.bytes.length r₂) question log log' := by
  have hempty : log.part .additional = [] := empty
  have hreach := grown₂.length_le idle₂.header
  have hreach₀ := grown.length_le idle.header
  have hcut := cutBack_message idle idle₂.counts (fun i lo hi => grown₂.getElem? lo hi) hreach
    (Log.add_without hempty es)
  have hlen := cutBack_length .additional idle.header hreach
  have hflags : ∀ i, i < 6 → (cutBack .additional r.bytes.length r₂).bytes[i]? = r.bytes[i]? := by
    intro i hi
    rw [getElem?_cutBack .additional idle.header hreach
      (Nat.lt_of_lt_of_le (hi.trans (by decide)) idle.header) (.inl (hi.trans (by decide)))]
    exact grown₂.flags i hi
  unfold Env.shorten
  simp only []
  split
  · split
    · rename_i hplain
      have hplain : env.doDnssec = false := (Bool.not_eq_true' _).mp hplain.1
      have hreach₁ : r₀.bytes.length ≤ (cutBack .additional r.bytes.length r₂).bytes.length :=
        hreach₀.trans hlen.ge
      refine ⟨log.without .authority, cutBack_message idle₀ hcut.counts (fun i lo hi => ?_) hreach₁
        rfl, fun i hi => ?_, rfl, .inr ⟨hplain, rfl⟩⟩
      · rw [getElem?_cutBack .additional idle.header hreach (by omega) (.inr lo),
          grown₂.getElem? lo (by omega), grown.getElem? lo hi]
      · rw [getElem?_cutBack .authority idle₀.header hreach₁
          (Nat.lt_of_lt_of_le (hi.trans (by decide)) idle₀.header) (.inl (hi.trans (by decide)))]
        exact hflags i hi
    · exact ⟨log, hcut, hflags, rfl, .inl rfl⟩
  · exact ⟨_, idle₂.message, grown₂.flags, rfl, .inl rfl⟩

/-- **What `finish` adds and drops does not touch the answer section**, and with DNSSEC not the
authority section. -/
theorem finish_spec {flagauthoritative : Bool} {anpos : Nat} {r₀ r r' : Response} {question : Name}
    {log : Log} (idle₀ : Idle r₀ question (log.without .authority)) (idle : Idle r question log)
    (grown : Extends r₀ r) (empty : log.additional = [])
    (h : env.finish flagauthoritative anpos r₀.bytes.length r = .ok r') :
    ∃ log', Finished env.doDnssec r r' question log log' := by
  unfold Env.finish at h
  obtain ⟨r₁, hopt, h⟩ := bind_eq_ok.mp h
  obtain ⟨r₂, hservers, h⟩ := bind_eq_ok.mp h
  obtain ⟨es, hes⟩ := (addOpt_some hopt).trans (addServers_some hservers)
  obtain ⟨idle₂, grown₂⟩ := hes question log idle trivial
  cases h
  exact shorten_spec idle₀ idle grown empty idle₂ grown₂

/-! ## The authority section -/

theorem addNSEC3_some {hashName : Name} (labels : ∀ l ∈ hashName, ValidLabel l) {r r' : Response}
    (h : env.addNSEC3 hashName r = .ok r') : EmitsSome .authority r r' := by
  rcases addNSEC3_spec labels h with ⟨_, rfl⟩ | ⟨_, _, hemits⟩
  · exact .refl _ _
  · exact ⟨_, hemits⟩

theorem addNSEC3Cover_some {name control : Name} (labels : ∀ l ∈ control, ValidLabel l) {wild : Bool}
    {r r' : Response} (h : env.addNSEC3Cover name control wild r = .ok r') :
    EmitsSome .authority r r' := by
  obtain ⟨p, hash, _, hcovering, hadd⟩ := addNSEC3Cover_spec h
  exact addNSEC3_some (covering_labels labels hcovering) hadd

theorem addClosestEncloserProof_some {name control : Name} (labels : ∀ l ∈ control, ValidLabel l)
    {includeWild : Bool} {r r' : Response}
    (h : env.addClosestEncloserProof name control includeWild r = .ok r') :
    EmitsSome .authority r r' := by
  unfold Env.addClosestEncloserProof at h
  split at h
  · cases h
  · rename_i hencloser
    obtain ⟨r₁, hadd, h⟩ := bind_eq_ok.mp h
    refine (addNSEC3_some (encloser_target hencloser).labels hadd).trans ?_
    split at h
    · obtain ⟨r₂, hwild, h⟩ := bind_eq_ok.mp h
      exact (addNSEC3Cover_some labels hwild).trans
        (addNSEC3Cover_some (labels_lowerTail labels _) h)
    · exact addNSEC3Cover_some labels h

theorem soaStep_some {control : Name} (valid : Valid control) {f : Found} (two : f.type.length = 2)
    {s s' : Response × Bool} (h : env.soaStep control f s = .ok s') :
    EmitsSome .authority s.1 s'.1 := by
  unfold Env.soaStep at h
  split at h
  · obtain ⟨r₁, hemit, h⟩ := bind_eq_ok.mp h
    cases h
    exact emit_some valid two hemit
  · split at h
    · obtain ⟨r₁, hemit, h⟩ := bind_eq_ok.mp h
      cases h
      exact emit_some valid two hemit
    · cases h
      exact .refl _ _

theorem nsStep_some {control : Name} (valid : Valid control) {f : Found} (two : f.type.length = 2)
    {s s' : Response × Bool} (h : env.nsStep control f s = .ok s') :
    EmitsSome .authority s.1 s'.1 := by
  unfold Env.nsStep at h
  split at h
  · obtain ⟨r₁, hemit, h⟩ := bind_eq_ok.mp h
    cases h
    exact emit_some valid two hemit
  · split at h
    · obtain ⟨r₁, hemit, h⟩ := bind_eq_ok.mp h
      cases h
      exact emit_some valid two hemit
    · split at h
      · obtain ⟨r₁, hemit, h⟩ := bind_eq_ok.mp h
        cases h
        exact emit_some valid two hemit
      · cases h
        exact .refl _ _

theorem denialSoa_some {z : Zone} (valid : Valid z.control) {a : Answer} {r r' : Response}
    (h : env.denialSoa z a r = .ok r') : EmitsSome .authority r r' := by
  unfold Env.denialSoa at h
  split at h
  · cases h
    exact .refl _ _
  · obtain ⟨s, hloop, h⟩ := bind_eq_ok.mp h
    cases h
    refine each_some (fun f t t' hmem hstep => ?_) hloop
    exact soaStep_some valid (found_read valid.labels hmem).typeOctets hstep

theorem denialProof_some {q : Name} {z : Zone} (valid : Valid z.control) {a : Answer}
    (target : ∀ n, a.nsec3 = some n → Valid n) {wild : Name} {r r' : Response}
    (h : env.denialProof q z a wild r = .ok r') : EmitsSome .authority r r' := by
  unfold Env.denialProof at h
  split at h
  · rename_i nsec3 _ hnsec3
    obtain ⟨r₁, hadd, h⟩ := bind_eq_ok.mp h
    refine (addNSEC3_some (target nsec3 hnsec3).labels hadd).trans ?_
    split at h
    · exact addClosestEncloserProof_some valid.labels h
    · cases h
      exact .refl _ _
  · exact addClosestEncloserProof_some valid.labels h

theorem denial_some {q : Name} {z : Zone} (valid : Valid z.control) {a : Answer}
    (target : env.doDnssec = true → ∀ n, a.nsec3 = some n → Valid n) {wild : Name} {r r' : Response}
    (h : env.denial q z a wild r = .ok r') : EmitsSome .authority r r' := by
  unfold Env.denial at h
  obtain ⟨r₁, hsoa, h⟩ := bind_eq_ok.mp h
  refine (denialSoa_some valid hsoa).trans ?_
  split at h
  · rename_i hdns
    exact denialProof_some valid (target (Bool.and_eq_true_iff.mp hdns).1) h
  · cases h
    exact .refl _ _

theorem lowerTail_valid {d : Name} (valid : Valid d) (n : Nat) : Valid (lowerTail n d) := by
  refine ⟨labels_lowerTail valid.labels n, ?_⟩
  have hsplit := congrArg span (List.take_append_drop (d.length - n) d)
  have hshort := valid.short
  rw [span_append] at hsplit
  unfold lowerTail
  rw [span_append, span_lowerName]
  omega

theorem wildcardProof_some {q : Name} {z : Zone} (valid : Valid z.control) {wild : Name}
    {r r' : Response} (h : env.wildcardProof q z wild r = .ok r') : EmitsSome .authority r r' := by
  unfold Env.wildcardProof at h
  split at h
  · exact addNSEC3Cover_some valid.labels h
  · cases h
    exact .refl _ _

theorem servers_some {flagauthoritative : Bool} {control : Name} (valid : Valid control)
    (home : env.doDnssec = false ∨ flagauthoritative = true) {r r' : Response}
    (h : env.servers flagauthoritative control r = .ok r') : EmitsSome .authority r r' := by
  unfold Env.servers at h
  split at h
  · obtain ⟨s, hloop, h⟩ := bind_eq_ok.mp h
    have hsome : EmitsSome .authority r s.1 := each_some (fun f t t' hmem hstep =>
      nsStep_some valid (found_read valid.labels hmem).typeOctets hstep) hloop
    have hproof : ¬(env.doDnssec && !flagauthoritative && !s.2) = true := by
      rcases home with hplain | hauth
      · rw [hplain, Bool.false_and, Bool.false_and]
        exact Bool.false_ne_true
      · rw [hauth, Bool.not_true, Bool.and_false, Bool.false_and]
        exact Bool.false_ne_true
    simp only [if_neg hproof] at h
    cases h
    exact hsome
  · cases h
    exact .refl _ _

theorem delegation_some {q : Name} {z : Zone} (valid : Valid z.control) {wild : Name}
    (home : env.doDnssec = false ∨ z.flagauthoritative = true) {r r' : Response}
    (h : env.delegation q z wild r = .ok r') : EmitsSome .authority r r' := by
  unfold Env.delegation at h
  obtain ⟨r₁, hproof, h⟩ := bind_eq_ok.mp h
  refine (wildcardProof_some valid hproof).trans (servers_some ?_ home h)
  split
  · exact lowerTail_valid valid _
  · exact valid

/-- **The authority part adds records to the authority section**, outside referrals with DNSSEC. -/
theorem authority_some {q : Name} {z : Zone} (valid : Valid z.control) {a : Answer}
    (target : env.doDnssec = true → ∀ n, a.nsec3 = some n → Valid n) {wild : Name} {anpos : Nat}
    (home : env.doDnssec = false ∨ z.flagauthoritative = true) {r r' : Response}
    (h : env.authority q z a wild anpos r = .ok r') : EmitsSome .authority r r' := by
  unfold Env.authority at h
  split at h
  · exact denial_some valid target h
  · exact delegation_some valid home h

/-- **From the label AUTHORITY on**, records are added to the authority section, and the rest leaves
them and the answer as `Finished` says. -/
theorem close_spec {q : Name} {z : Zone} {a : Answer} {wild : Name} {anpos : Nat} {r r' : Response}
    {question : Name} {log : Log} (idle : Idle r question log) (fresh : log.authority = [])
    (empty : log.additional = [])
    (some : ∀ r₁, env.authority q z a wild anpos r = .ok r₁ → EmitsSome .authority r r₁)
    (h : env.close q z a wild anpos r = .ok r') :
    ∃ r₁ log₁ log', env.authority q z a wild anpos r = .ok r₁ ∧ Idle r₁ question log₁ ∧
      Extends r r₁ ∧ log₁.answer = log.answer ∧ log₁.additional = [] ∧
      Finished env.doDnssec r₁ r' question log₁ log' := by
  unfold Env.close at h
  obtain ⟨r₁, hauthority, h⟩ := bind_eq_ok.mp h
  obtain ⟨es, hes⟩ := some r₁ hauthority
  obtain ⟨idle₁, grown⟩ := hes question log idle empty
  have hbefore : (log.add .authority es).without .authority = log :=
    Log.add_without (show log.part .authority = [] from fresh) es
  obtain ⟨log', hfinished⟩ := finish_spec (hbefore.symm ▸ idle) idle₁ grown empty h
  exact ⟨r₁, _, log', hauthority, idle₁, grown, rfl, empty, hfinished⟩

end TinyDnssec.Lookup
