import TinyDnssec.Lookup.Answers
import TinyDnssec.Lookup.Leftover

/-!
# Referrals of a signed zone

What a referral proves about the child zone. With DS records at the delegation, the records and the
signatures over them are all in the authority section. Without them the proof would be the NSEC3
record of the delegation's hashed name; `servers` asks `addNSEC3` for the records of the delegation
itself, and so no referral has it.

A reader of a response only sees its octets, and where `addNSEC3` failed they are not even a message.
`Begins` says of octets with which records they begin, however they end.

Whether a validating client accepts a referral without a proof is not decided here.
-/

namespace TinyDnssec.Lookup

open Octets Loop

variable {env : Env}

/-! ## The loop over the records of a delegation -/

/-- How a record of a zone is copied into a referral, if it is. -/
def Env.nsShape (env : Env) (f : Found) : Option (List Field) :=
  if f.type = dnsTNs then some [.name]
  else if env.doDnssec ∧ f.type = dnsTDs then some [.rest]
  else if env.doDnssec && (f.signs dnsTNs || f.signs dnsTDs) then some rrsigShape
  else none

/-- What a record of a zone adds to a referral. -/
def Env.nsEntries (env : Env) (control : Name) (f : Found) : List Entry :=
  ((env.nsShape f).bind fun shape => entryOf control shape f).toList

theorem entryOf_owner {owner : Name} {shape : List Field} {f : Found} {e : Entry}
    (h : entryOf owner shape f = some e) : e.owner = owner := by
  obtain ⟨_, _, rfl⟩ := Option.map_eq_some_iff.mp h
  rfl

theorem nsEntries_owner {control : Name} {f : Found} {e : Entry} (h : e ∈ env.nsEntries control f) :
    e.owner = control := by
  obtain ⟨_, _, hentry⟩ := Option.bind_eq_some_iff.mp (Option.mem_toList.mp h)
  exact entryOf_owner hentry

theorem nsec3Entries_owner {hashName : Name} {f : Found} {e : Entry}
    (h : e ∈ env.nsec3Entries hashName f) : e.owner = hashName := by
  unfold Env.nsec3Entries at h
  split at h
  · exact entryOf_owner (Option.mem_toList.mp h)
  · split at h
    · exact entryOf_owner (Option.mem_toList.mp h)
    · cases h

/-- One record: it is copied as its shape says, and `have_ds` notes a DS record. -/
theorem nsStep_spec {control : Name} (valid : Valid control) {f : Found} (two : f.type.length = 2)
    {s s' : Response × Bool} (h : env.nsStep control f s = .ok s') :
    Emits .authority (env.nsEntries control f) s.1 s'.1 ∧
      (∀ shape, env.nsShape f = some shape → (entryOf control shape f).isSome = true) ∧
      (s'.2 = true ↔ s.2 = true ∨ env.doDnssec = true ∧ f.type = dnsTDs) := by
  have hcopy {shape : List Field} (hshape : env.nsShape f = some shape) {r' : Response}
      (hemit : emit control shape .authority f s.1 = .ok r') :
      Emits .authority (env.nsEntries control f) s.1 r' ∧
        ∀ shape, env.nsShape f = some shape → (entryOf control shape f).isSome = true := by
    obtain ⟨e, he, hemits⟩ := emit_emits valid two hemit
    refine ⟨?_, fun shape' hshape' => ?_⟩
    · unfold Env.nsEntries
      rw [hshape, Option.bind_some, he]
      exact hemits
    · rw [hshape] at hshape'
      cases hshape'
      rw [he]
      rfl
  unfold Env.nsStep at h
  split at h
  · rename_i hns
    obtain ⟨r₁, hemit, h⟩ := bind_eq_ok.mp h
    cases h
    obtain ⟨hemits, hdecoded⟩ := hcopy (if_pos hns) hemit
    refine ⟨hemits, hdecoded, (or_iff_left ?_).symm⟩
    rw [hns]
    exact fun hds => absurd hds.2 (by decide)
  · rename_i hns
    split at h
    · rename_i hds
      obtain ⟨r₁, hemit, h⟩ := bind_eq_ok.mp h
      cases h
      obtain ⟨hemits, hdecoded⟩ := hcopy ((if_neg hns).trans (if_pos hds)) hemit
      exact ⟨hemits, hdecoded, iff_of_true rfl (.inr hds)⟩
    · rename_i hds
      split at h
      · rename_i hsigns
        obtain ⟨r₁, hemit, h⟩ := bind_eq_ok.mp h
        cases h
        obtain ⟨hemits, hdecoded⟩ :=
          hcopy ((if_neg hns).trans ((if_neg hds).trans (if_pos hsigns))) hemit
        exact ⟨hemits, hdecoded, (or_iff_left hds).symm⟩
      · rename_i hsigns
        cases h
        have hshape : env.nsShape f = none :=
          (if_neg hns).trans ((if_neg hds).trans (if_neg hsigns))
        refine ⟨?_, fun shape hsome => ?_, (or_iff_left hds).symm⟩
        · unfold Env.nsEntries
          rw [hshape]
          exact .refl _ _
        · rw [hshape] at hsome
          cases hsome

/-- What the loop has done with some records of the delegation. -/
structure Referred (env : Env) (control : Name) (fs : List Found) (s s' : Response × Bool) : Prop where
  emits : Emits .authority (fs.flatMap (env.nsEntries control)) s.1 s'.1
  decoded : ∀ f ∈ fs, ∀ shape, env.nsShape f = some shape → (entryOf control shape f).isSome = true
  haveDs : s'.2 = true ↔ s.2 = true ∨ ∃ f ∈ fs, env.doDnssec = true ∧ f.type = dnsTDs

theorem Referred.start (env : Env) (control : Name) (s : Response × Bool) :
    Referred env control [] s s where
  emits := .refl _ _
  decoded := fun _ h => absurd h List.not_mem_nil
  haveDs := (or_iff_left fun ⟨_, h, _⟩ => absurd h List.not_mem_nil).symm

theorem Referred.turn {control : Name} (valid : Valid control) {fs : List Found} {f : Found}
    (two : f.type.length = 2) {s t t' : Response × Bool} (h : Referred env control fs s t)
    (step : env.nsStep control f t = .ok t') : Referred env control (fs ++ [f]) s t' := by
  obtain ⟨hemits, hdecoded, hds⟩ := nsStep_spec valid two step
  refine ⟨?_, fun g hg => ?_, ?_⟩
  · rw [List.flatMap_append, List.flatMap_singleton]
    exact h.emits.trans hemits
  · rcases List.mem_append.mp hg with hg | hg
    · exact h.decoded g hg
    · rw [List.mem_singleton.mp hg]
      exact hdecoded
  · rw [hds, h.haveDs]
    constructor
    · rintro ((hs | ⟨g, hg, hgds⟩) | hf)
      · exact .inl hs
      · exact .inr ⟨g, List.mem_append_left _ hg, hgds⟩
      · exact .inr ⟨f, List.mem_append_right _ (List.mem_singleton_self f), hf⟩
    · rintro (hs | ⟨g, hg, hgds⟩)
      · exact .inl (.inl hs)
      · rcases List.mem_append.mp hg with hg | hg
        · exact .inl (.inr ⟨g, hg, hgds⟩)
        · exact .inr (List.mem_singleton.mp hg ▸ hgds)

/-- **`addNSEC3` copies some NSEC3 records of the name it is given**; where it fails, what it copied
before stays. -/
theorem addNSEC3_leaves {hashName : Name} (labels : ∀ l ∈ hashName, ValidLabel l) (r : Response) :
    Leaves (fun r' => ∃ es r₁, Emits .authority es r r₁ ∧ (∀ e ∈ es, e.owner = hashName) ∧
      Keeps r₁ r') id (env.addNSEC3 hashName r) := by
  unfold Env.addNSEC3
  split
  · have hcases := @each_cases _ _ _ id (env.nsec3Step hashName)
      (fun done t => Emits .authority (done.flatMap (env.nsec3Entries hashName)) r t)
      (env.find hashName false) (fun done f t t' hmem hdone hbody => by
        rw [List.flatMap_append, List.flatMap_singleton]
        exact hdone.trans (nsec3Step_emits (valid_of_find labels (List.ne_nil_of_mem hmem))
          (found_read labels hmem).typeOctets hbody))
      [] r (show Emits .authority (([] : List Found).flatMap (env.nsec3Entries hashName)) r r from
        .refl .authority r)
    have howner : ∀ as : List Found, ∀ e ∈ as.flatMap (env.nsec3Entries hashName),
        e.owner = hashName := by
      intro as e he
      obtain ⟨f, _, hf⟩ := List.mem_flatMap.mp he
      exact nsec3Entries_owner hf
    cases hloop : each id (env.nsec3Step hashName) (env.find hashName false) r with
    | ok r' =>
      rw [hloop] at hcases
      obtain ⟨as, _, hemits⟩ := hcases
      exact ⟨_, r', hemits, howner _, .refl r'⟩
    | error e =>
      rw [hloop] at hcases
      obtain ⟨as, r₁, _, hemits, hwhy⟩ := hcases
      refine ⟨_, r₁, hemits, howner _, ?_⟩
      rcases hwhy with hsame | ⟨f, _, hbody⟩
      · rw [hsame]
        exact .refl r₁
      · unfold Env.nsec3Step at hbody
        split at hbody
        · exact emit_failed hbody
        · split at hbody
          · exact emit_failed hbody
          · cases hbody
  · exact ⟨[], r, .refl _ r, fun _ h => absurd h List.not_mem_nil, .refl r⟩

/-! ## A referral -/

/-- A message in place is what the octets begin with. -/
theorem begins_of_idle {r r' : Response} {question : Name} {log : Log} (idle : Idle r question log)
    (empty : log.additional = []) (h : Keeps r r') : Begins r'.bytes question log := by
  have hlength := h.length
  have hheader := idle.header
  have hwithin : Within (stable headerHole r.bytes) (memory r'.bytes) := by
    intro i b hb
    unfold stable at hb
    split at hb
    · cases hb
    · rename_i hout
      have hi : 12 ≤ i := Nat.not_lt.mp (mt decide_eq_true hout)
      obtain ⟨hlt, _⟩ := List.getElem?_eq_some_iff.mp hb
      exact (h.octets i hlt (.inr hi)).trans hb
  obtain ⟨p, hname, hentries⟩ := idle.body.mono hwithin
  refine ⟨h.limit idle.limit, ?_, p, r.bytes.length, hname, hlength, ?_⟩
  · refine holds_of_agree (holds_append.mp idle.counts).1 fun i lo hi => ?_
    have hi : i < 6 + 4 := hi
    exact h.octets i (by omega) (.inl hi)
  · rwa [Log.all, empty, List.append_nil] at hentries

/-- The way to a referral: the query lies in a zone that has no SOA record here. -/
theorem respond_referral {q c : Name} {qtype : Bytes} {r r' : Response} (zone : env.Nearest q c)
    (child : ¬env.Shows c dnsTSoa) (h : env.respond q qtype r = .ok r') :
    ∃ r₁, env.servers false c (clearAa r) = .ok r₁ ∧
      env.finish false r.bytes.length (clearAa r).bytes.length r₁ = .ok r' := by
  unfold Env.respond Env.doit at h
  simp only [] at h
  split at h
  · cases h
  · cases h
  · rename_i z hz
    obtain ⟨hnearest, hsoa, _⟩ := zone_nearest hz
    have hcontrol := hnearest.unique zone
    have hauth : z.flagauthoritative = false := by
      rw [← Bool.not_eq_true, hsoa, hcontrol]
      exact child
    rw [hauth, if_neg Bool.false_ne_true] at h
    unfold Env.close at h
    obtain ⟨r₁, hauthority, h⟩ := bind_eq_ok.mp h
    rw [hauth] at h
    refine ⟨r₁, ?_, h⟩
    have hself : env.provesWildcard q z q = false := by
      unfold Env.provesWildcard
      rw [decide_eq_false (fun hne => hne rfl), Bool.and_false, Bool.false_and]
    unfold Env.authority Env.delegation Env.wildcardProof at hauthority
    rw [hauth, hself, hcontrol] at hauthority
    exact hauthority

/-- **The NS and DS records of a referral**, and what comes behind them: without DS records, what
`addNSEC3` leaves of the delegation's own name. -/
theorem servers_referral (dnssec : env.doDnssec = true) {question c : Name} (valid : Valid c)
    {r r' : Response} (idle : Idle r question {}) (h : env.servers false c r = .ok r') :
    ∃ r₁ b, Referred env c (env.visible c false) (r, false) (r₁, b) ∧
      (b = true → r' = r₁) ∧
      ∃ es r₂, Emits .authority es r₁ r₂ ∧ (∀ e ∈ es, e.owner = c) ∧ Keeps r₂ r' := by
  have hwant : want c dnsTNs r = true := by
    rw [want_iff idle valid]
    rintro ⟨_, he, _⟩
    exact absurd he List.not_mem_nil
  unfold Env.servers at h
  rw [if_pos hwant] at h
  obtain ⟨⟨r₁, b⟩, hloop, h⟩ := bind_eq_ok.mp h
  obtain ⟨fs, hfs, hreferred⟩ := each_run (P := fun done t => Referred env c done (r, false) t)
    (.start env c _) (fun done f t t' hmem hdone hstep =>
      hdone.turn valid (found_read valid.labels hmem).typeOctets hstep) hloop
  rw [visible_eq hfs]
  refine ⟨r₁, b, hreferred, ?_, ?_⟩
  · rintro rfl
    simp only [dnssec, Bool.not_true, Bool.and_false, Bool.false_eq_true, if_false] at h
    cases h
    rfl
  · cases b with
    | true =>
      simp only [dnssec, Bool.not_true, Bool.and_false, Bool.false_eq_true, if_false] at h
      cases h
      exact ⟨[], _, .refl _ _, fun _ hm => absurd hm List.not_mem_nil, .refl _⟩
    | false =>
      simp only [dnssec, Bool.not_false, Bool.and_self, if_true] at h
      have hleaves := @addNSEC3_leaves env _ valid.labels r₁
      split at h
      · rename_i hadd
        cases h
        exact hleaves.ok hadd
      · rename_i hadd
        cases h
        exact hleaves.error hadd

/-! ## What it proves -/

/-- **The authority section proves what the parent zone knows of the delegation**: its NS records, and
either its DS records with the signatures over them or, where it has none, the NSEC3 records of
its hashed name with theirs. -/
structure Env.Secured (env : Env) (c hashName : Name) (authority : List Entry) : Prop where
  servers : ∀ f ∈ env.visible c false, f.type = dnsTNs →
    ∃ e ∈ authority, entryOf c [.name] f = some e
  proof : (env.Shows c dnsTDs ∧ ∀ f ∈ env.visible c false,
      (f.type = dnsTDs → ∃ e ∈ authority, entryOf c [.rest] f = some e) ∧
      (f.signs dnsTDs = true → ∃ e ∈ authority, entryOf c rrsigShape f = some e)) ∨
    (¬env.Shows c dnsTDs ∧ ∀ f ∈ env.visible hashName false,
      (f.type = dnsTNsec3 → ∃ e ∈ authority, entryOf hashName [.rest] f = some e) ∧
      (f.signs dnsTNsec3 = true → ∃ e ∈ authority, entryOf hashName rrsigShape f = some e))

section

variable {q question c hashName : Name} {qtype : Bytes} {r r' : Response}

/-- With DS records, the proof is there. -/
theorem secured_of_ds (dnssec : env.doDnssec = true) (valid : Valid q) (idle : Idle r question {})
    (zone : env.Nearest q c) (child : ¬env.Shows c dnsTSoa) (ds : env.Shows c dnsTDs)
    (h : env.respond q qtype r = .ok r') :
    ∃ log, Says r'.bytes question log ∧ env.Secured c hashName log.authority := by
  obtain ⟨r₁, hservers, hfinish⟩ := respond_referral zone child h
  have hc := valid.suffix zone.above
  obtain ⟨r₂, b, hreferred, hsame, _⟩ := servers_referral dnssec hc idle.clearAa hservers
  have hb : b = true := by
    obtain ⟨f, hf, htype⟩ := ds
    exact hreferred.haveDs.mpr (.inr ⟨f, hf, dnssec, htype⟩)
  rw [hsame hb] at hfinish
  obtain ⟨hidle, hgrown⟩ := hreferred.emits question {} idle.clearAa rfl
  obtain ⟨log, hfinished⟩ := finish_spec idle.clearAa hidle hgrown rfl hfinish
  refine ⟨log, hfinished.message, ?_⟩
  have hauthority : log.authority = (env.visible c false).flatMap (env.nsEntries c) :=
    hfinished.authority.resolve_right fun hplain => by
      rw [dnssec] at hplain
      cases hplain.1
  have hcopied {f : Found} (hf : f ∈ env.visible c false) {shape : List Field}
      (hshape : env.nsShape f = some shape) : ∃ e ∈ log.authority, entryOf c shape f = some e := by
    obtain ⟨e, he⟩ := Option.isSome_iff_exists.mp (hreferred.decoded f hf shape hshape)
    refine ⟨e, ?_, he⟩
    rw [hauthority]
    refine List.mem_flatMap.mpr ⟨f, hf, ?_⟩
    unfold Env.nsEntries
    rw [hshape, Option.bind_some, he]
    exact List.mem_singleton_self e
  refine ⟨fun f hf htype => hcopied hf (if_pos htype), .inl ⟨ds, fun f hf => ⟨fun htype => ?_,
    fun hsigns => ?_⟩⟩⟩
  · refine hcopied hf ((if_neg ?_).trans (if_pos ⟨dnssec, htype⟩))
    rw [htype]
    decide
  · have htype : f.type = dnsTRrsig := by
      unfold Found.signs at hsigns
      rw [Bool.and_eq_true, Bool.and_eq_true, decide_eq_true_iff] at hsigns
      exact hsigns.1.1
    refine hcopied hf ((if_neg ?_).trans ((if_neg ?_).trans (if_pos ?_)))
    · rw [htype]
      decide
    · rw [htype]
      exact fun h => absurd h.2 (by decide)
    · rw [dnssec, hsigns, Bool.or_true, Bool.and_self]

/-- Without DS records, no reading of the response has an authority record of another name. -/
theorem authority_owner (dnssec : env.doDnssec = true) (valid : Valid q) (idle : Idle r question {})
    (zone : env.Nearest q c) (child : ¬env.Shows c dnsTSoa) (h : env.respond q qtype r = .ok r')
    {question' : Name} {log : Log} (message : Says r'.bytes question' log) :
    ∀ e ∈ log.authority, lowerName e.owner = lowerName c := by
  obtain ⟨r₁, hservers, hfinish⟩ := respond_referral zone child h
  have hc := valid.suffix zone.above
  obtain ⟨r₂, b, hreferred, _, es, r₃, hemits, howner, hkeeps⟩ :=
    servers_referral dnssec hc idle.clearAa hservers
  obtain ⟨hidle, _⟩ := hreferred.emits question {} idle.clearAa rfl
  obtain ⟨hidle, _⟩ := hemits question _ hidle rfl
  have hheader := hidle.header.trans hkeeps.length
  have halike := (begins_of_idle hidle rfl (hkeeps.trans (finish_keeps hheader hfinish))).alike message
  intro e he
  obtain ⟨i, hi, rfl⟩ := List.getElem_of_mem he
  have hi' := halike.length_eq.symm ▸ hi
  have hat := halike.get hi' hi
  refine hat.owner.symm.trans (congrArg lowerName ?_)
  rcases List.mem_append.mp (List.getElem_mem hi') with hm | hm
  · obtain ⟨f, _, hf⟩ := List.mem_flatMap.mp hm
    exact nsEntries_owner hf
  · exact howner _ hm

/-- Without DS records, there is no proof. -/
theorem not_secured (dnssec : env.doDnssec = true) (valid : Valid q) (idle : Idle r question {})
    (zone : env.Nearest q c) (child : ¬env.Shows c dnsTSoa) (ds : ¬env.Shows c dnsTDs)
    (nsec3 : env.Shows hashName dnsTNsec3) (other : lowerName hashName ≠ lowerName c)
    (h : env.respond q qtype r = .ok r') {question' : Name} {log : Log}
    (message : Says r'.bytes question' log) : ¬env.Secured c hashName log.authority := by
  intro hsecured
  obtain ⟨_, hproof⟩ := hsecured.proof.resolve_left fun hds => ds hds.1
  obtain ⟨f, hf, htype⟩ := nsec3
  obtain ⟨e, he, hentry⟩ := (hproof f hf).1 htype
  have howner := authority_owner dnssec valid idle zone child h message e he
  rw [entryOf_owner hentry] at howner
  exact other howner

/-- **A signed referral proves what it should exactly when there are DS records.** The delegation has
a HASHREF record for its hashed name, and the NSEC3 records are there. -/
theorem respond_secures_iff (dnssec : env.doDnssec = true) (valid : Valid q)
    (idle : Idle r question {}) (zone : env.Nearest q c) (child : ¬env.Shows c dnsTSoa)
    (nsec3 : (∃ f ∈ env.visible c false, hashref f = some (some hashName)) ∧
      env.Shows hashName dnsTNsec3) (other : lowerName hashName ≠ lowerName c)
    (h : env.respond q qtype r = .ok r') :
    (∃ log, Says r'.bytes question log ∧ env.Secured c hashName log.authority) ↔
      env.Shows c dnsTDs := by
  constructor
  · rintro ⟨log, hmessage, hsecured⟩
    by_contra hds
    exact not_secured dnssec valid idle zone child hds nsec3.2 other h hmessage hsecured
  · exact fun hds => secured_of_ds dnssec valid idle zone child hds h

end

/-- The data of an RRSIG record over a type, signed by the zone `z`. -/
def signature (covered : Bytes) : Bytes := covered ++ List.replicate 16 0 ++ [1, 122, 0, 9]

/-- The signed zone `z` with two children: `d.z` with a DS record, `u.z` without. -/
def parentZone : Data.Database where
  records :=
    let rr (owner : Name) (type rdata : Bytes) :=
      Data.rr owner type 60 (Data.ttdparse []) [0, 0] rdata
    [rr [[122]] dnsTSoa ([0, 0] ++ List.replicate 20 0), rr [[122]] dnsTNs [0],
      rr [[122]] dnsTDnskey [1], rr [[122]] dnsTNsec3param [1, 0, 0, 0, 0],
      rr [[122]] dnsTRrsig (signature dnsTSoa),
      rr [[100], [122]] dnsTNs [0], rr [[100], [122]] dnsTDs [7],
      rr [[100], [122]] dnsTRrsig (signature dnsTDs),
      rr [[100], [122]] dnsTHashref (wire [[103], [122]]),
      rr [[103], [122]] dnsTNsec3 [1], rr [[103], [122]] dnsTRrsig (signature dnsTNsec3),
      rr [[117], [122]] dnsTNs [0], rr [[117], [122]] dnsTHashref (wire [[104], [122]]),
      rr [[104], [122]] dnsTNsec3 [1], rr [[104], [122]] dnsTRrsig (signature dnsTNsec3)]
  wellFormed := by decide +kernel

/-- A delegation is the nearest name with NS records of itself. -/
theorem nearest_self {c : Name} (servers : env.Shows c dnsTNs) : env.Nearest c c :=
  ⟨List.suffix_refl c, servers, fun _ hb hc hne => absurd (hb.eq_of_length_le hc.length_le) hne⟩

theorem respond_secures_signed :
    ∃ r r' log, responseQuery [[100], [122]] dnsTA dnsCIn ⟨[], [], 0, 0⟩ = .ok r ∧
      (Env.of parentZone true).respond [[100], [122]] dnsTA r = .ok r' ∧
      Says r'.bytes [[100], [122]] log ∧
      (Env.of parentZone true).Secured [[100], [122]] [[103], [122]] log.authority := by
  obtain ⟨r, hr⟩ : ∃ r, responseQuery [[100], [122]] dnsTA dnsCIn ⟨[], [], 0, 0⟩ = .ok r :=
    exists_of_isOk rfl
  obtain ⟨r', hr'⟩ : ∃ r', (Env.of parentZone true).respond [[100], [122]] dnsTA r = .ok r' := by
    cases hr
    exact exists_of_isOk (by decide +kernel)
  have hvalid : Valid [[100], [122]] := by decide
  have hsigned : (∃ f ∈ (Env.of parentZone true).visible [[100], [122]] false,
      hashref f = some (some [[103], [122]])) ∧
      (Env.of parentZone true).Shows [[103], [122]] dnsTNsec3 := by
    unfold Env.Shows
    exact ⟨by decide +kernel, by decide +kernel⟩
  have hiff := respond_secures_iff rfl hvalid (responseQuery_idle hvalid rfl rfl hr)
    (nearest_self (by unfold Env.Shows; decide +kernel)) (by unfold Env.Shows; decide +kernel)
    hsigned (by decide) hr'
  obtain ⟨log, hmessage, hsecured⟩ := hiff.mpr (by unfold Env.Shows; decide +kernel)
  exact ⟨r, r', log, hr, hr', hmessage, hsecured⟩

/-- The referral to `u.z` lacks the NSEC3 record, however its octets are read. -/
theorem respond_secures_unsigned :
    ∃ r r', responseQuery [[119], [117], [122]] dnsTA dnsCIn ⟨[], [], 0, 0⟩ = .ok r ∧
      (Env.of parentZone true).respond [[119], [117], [122]] dnsTA r = .ok r' ∧
      ¬∃ log, Says r'.bytes [[119], [117], [122]] log ∧
        (Env.of parentZone true).Secured [[117], [122]] [[104], [122]] log.authority := by
  obtain ⟨r, hr⟩ : ∃ r, responseQuery [[119], [117], [122]] dnsTA dnsCIn ⟨[], [], 0, 0⟩ = .ok r :=
    exists_of_isOk rfl
  obtain ⟨r', hr'⟩ : ∃ r', (Env.of parentZone true).respond [[119], [117], [122]] dnsTA r = .ok r' := by
    cases hr
    exact exists_of_isOk (by decide +kernel)
  have hvalid : Valid [[119], [117], [122]] := by decide
  have hzone : (Env.of parentZone true).Nearest [[119], [117], [122]] [[117], [122]] := by
    refine ⟨⟨[[119]], rfl⟩, by unfold Env.Shows; decide +kernel, fun b hb hc hne => ?_⟩
    rcases List.suffix_cons_iff.mp hb with rfl | hb
    · unfold Env.Shows
      decide +kernel
    · exact absurd (hb.eq_of_length_le hc.length_le) hne
  refine ⟨r, r', hr, hr', ?_⟩
  rintro ⟨log, hmessage, hsecured⟩
  exact not_secured rfl hvalid (responseQuery_idle hvalid rfl rfl hr) hzone
    (by unfold Env.Shows; decide +kernel) (by unfold Env.Shows; decide +kernel)
    (by unfold Env.Shows; decide +kernel) (by decide) hr' hmessage hsecured

end TinyDnssec.Lookup
