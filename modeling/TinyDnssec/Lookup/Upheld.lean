import TinyDnssec.Lookup.Addresses
import TinyDnssec.Lookup.Twin

/-!
# What a lookup leaves of the question

`doit` is called with a response that has the question and nothing else, and a reply that is too long
is cut back to that. `Upholds` is what the sender needs of everything in between: the id, the TC bit, the
count of questions, the octets behind the header and the place for the cut stay as they are.

`doit_ends` has more of what `doit` replies: it is a message. One way is closed for that by
`HashesApart`: a referral without DS records asks `addNSEC3` for records of the delegation, and goes
on when that has failed in the middle of one.

Nothing is said about which records the reply has.
-/

namespace TinyDnssec.Lookup

open Octets Loop

variable {env : Env}

/-! ## What stays -/

/-- Everything but the other flags and the counts of records stays, and so does the place for a
cut. -/
structure Upholds (r r' : Response) : Prop where
  length : r.bytes.length ≤ r'.bytes.length
  tc : r'.bytes.getD 2 0 &&& 2 = r.bytes.getD 2 0 &&& 2
  octets : ∀ i, i < r.bytes.length → i < 2 ∨ 4 ≤ i ∧ i < 6 ∨ 12 ≤ i → r'.bytes[i]? = r.bytes[i]?
  target : r'.tctarget = r.tctarget

theorem Upholds.refl (r : Response) : Upholds r r := ⟨Nat.le_refl _, rfl, fun _ _ _ => rfl, rfl⟩

theorem Upholds.trans {r r' r'' : Response} (h : Upholds r r') (h' : Upholds r' r'') :
    Upholds r r'' where
  length := h.length.trans h'.length
  tc := h'.tc.trans h.tc
  octets := fun i hi out =>
    (h'.octets i (Nat.lt_of_lt_of_le hi h.length) out).trans (h.octets i hi out)
  target := h'.target.trans h.target

/-- More records uphold what was there. -/
theorem upholds_of_extends {r r' : Response} (h : Extends r r') (header : 12 ≤ r'.bytes.length)
    (target : r'.tctarget = r.tctarget) : Upholds r r' := by
  refine ⟨h.length_le header, ?_, fun i hi out => ?_, target⟩
  · rw [List.getD_eq_getElem?_getD, h.flags 2 (by decide), ← List.getD_eq_getElem?_getD]
  · rcases out with low | low | high
    · exact h.flags i (by omega)
    · exact h.flags i low.2
    · exact h.getElem? high hi

/-- Other flags than TC are changed. -/
theorem upholds_flags {r : Response} (header : 12 ≤ r.bytes.length) {b : UInt8} {s : Bytes}
    (short : s.length ≤ 1) (tc : b &&& 2 = r.bytes.getD 2 0 &&& 2) :
    Upholds r { r with bytes := patch r.bytes 2 (b :: s) } := by
  have hfits : 2 + (b :: s).length ≤ r.bytes.length := by
    rw [List.length_cons]
    omega
  refine ⟨(patch_length hfits).ge, ?_, fun i _ out => getElem?_patch hfits ?_, rfl⟩
  · have hat : (patch r.bytes 2 (b :: s))[2]? = some b := (holds_cons.mp (holds_patch hfits)).1
    rw [List.getD_eq_getElem?_getD, hat]
    exact tc
  · rw [List.length_cons]
    omega

theorem clearAa_upholds {r : Response} (header : 12 ≤ r.bytes.length) : Upholds r (clearAa r) := by
  have htc : ∀ b : UInt8, b &&& 251 &&& 2 = b &&& 2 := by decide +kernel
  exact upholds_flags header (Nat.zero_le 1) (htc _)

theorem nxdomain_upholds {r : Response} (header : 12 ≤ r.bytes.length) : Upholds r (nxdomain r) := by
  have htc : ∀ b : UInt8, (b ||| 4) &&& 2 = b &&& 2 := by decide +kernel
  exact upholds_flags header (Nat.le_refl 1) (htc _)

/-- What is in front of a cut stays. -/
theorem cutBack_upholds {r₀ r : Response} (h : Upholds r₀ r) (header : 12 ≤ r₀.bytes.length)
    (s : Section) {pos : Nat} (behind : r₀.bytes.length ≤ pos) (reach : pos ≤ r.bytes.length) :
    Upholds r₀ (cutBack s pos r) := by
  have hs := s.offset_bounds
  have hlen := cutBack_length s (header.trans behind) reach
  have hsame (i : Nat) (hi : i < r₀.bytes.length) (out : i < 6 ∨ 12 ≤ i) :
      (cutBack s pos r).bytes[i]? = r.bytes[i]? :=
    getElem?_cutBack s (header.trans behind) reach (Nat.lt_of_lt_of_le hi behind) (by omega)
  refine ⟨hlen.symm ▸ behind, ?_, fun i hi out => ?_, h.target⟩
  · rw [List.getD_eq_getElem?_getD, hsame 2 (by omega) (by decide), ← List.getD_eq_getElem?_getD]
    exact h.tc
  · rw [hsame i hi (by omega)]
    exact h.octets i hi out

/-! ## The place for a cut -/

theorem twin_self (r : Response) : Twin (r.tctarget, r.tctarget) r r := ⟨rfl, rfl, rfl, rfl⟩

/-- Of two runs in step, each keeps the place for a cut. -/
theorem target_of_inStep {t : Nat × Nat} {r : Response} {x y : Build}
    (h : InStep (Twin t) (Twin t) x y) (run : x = .ok r) : r.tctarget = t.1 := by
  rw [run] at h
  cases h with
  | ok htwin => exact htwin.target

theorem target_of_inStepWith {α : Type} {t : Nat × Nat} {s : Response × α}
    {x y : Except Response (Response × α)} (h : InStep (TwinWith t) (Twin t) x y) (run : x = .ok s) :
    s.1.tctarget = t.1 := by
  rw [run] at h
  cases h with
  | ok htwin => exact htwin.1.target

theorem addNSEC3_target {hashName : Name} {r r' : Response} (h : env.addNSEC3 hashName r = .ok r') :
    r'.tctarget = r.tctarget :=
  target_of_inStep (@addNSEC3_twin _ _ _ env env.stale (twin_self r) hashName) h

theorem addNSEC3Cover_target {name control : Name} {wild : Bool} {r r' : Response}
    (h : env.addNSEC3Cover name control wild r = .ok r') : r'.tctarget = r.tctarget := by
  obtain ⟨_, _, _, _, hadd⟩ := addNSEC3Cover_spec h
  exact addNSEC3_target hadd

theorem addClosestEncloserProof_target {name control : Name} {includeWild : Bool} {r r' : Response}
    (h : env.addClosestEncloserProof name control includeWild r = .ok r') :
    r'.tctarget = r.tctarget := by
  unfold Env.addClosestEncloserProof at h
  split at h
  · cases h
  · obtain ⟨r₁, hadd, h⟩ := bind_eq_ok.mp h
    have hadd := addNSEC3_target hadd
    split at h
    · obtain ⟨r₂, hwild, h⟩ := bind_eq_ok.mp h
      exact (addNSEC3Cover_target h).trans ((addNSEC3Cover_target hwild).trans hadd)
    · exact (addNSEC3Cover_target h).trans hadd

theorem denialSoa_target {z : Zone} {a : Answer} {r r' : Response}
    (h : env.denialSoa z a r = .ok r') : r'.tctarget = r.tctarget := by
  unfold Env.denialSoa at h
  split at h
  · cases h
    rfl
  · obtain ⟨s, hloop, h⟩ := bind_eq_ok.mp h
    cases h
    obtain ⟨_, _, htarget⟩ := each_run (P := fun _ t => t.1.tctarget = r.tctarget) rfl
      (fun _ f t t' _ ht hstep =>
        (target_of_inStepWith (@soaStep_twin _ _ _ env env.stale (twin_self t.1) z.control f t.2)
          hstep).trans ht) hloop
    exact htarget

theorem denial_target {q : Name} {z : Zone} {a : Answer} {wild : Name} {r r' : Response}
    (h : env.denial q z a wild r = .ok r') : r'.tctarget = r.tctarget := by
  unfold Env.denial at h
  obtain ⟨r₁, hsoa, h⟩ := bind_eq_ok.mp h
  refine .trans ?_ (denialSoa_target hsoa)
  split at h
  · unfold Env.denialProof at h
    split at h
    · obtain ⟨r₂, hadd, h⟩ := bind_eq_ok.mp h
      refine .trans ?_ (addNSEC3_target hadd)
      split at h
      · exact addClosestEncloserProof_target h
      · cases h
        rfl
    · exact addClosestEncloserProof_target h
  · cases h
    rfl

theorem authority_target {q : Name} {z : Zone} {a : Answer} {wild : Name} {anpos : Nat}
    {r r' : Response} (h : env.authority q z a wild anpos r = .ok r') : r'.tctarget = r.tctarget := by
  unfold Env.authority at h
  split at h
  · exact denial_target h
  · unfold Env.delegation at h
    obtain ⟨r₁, hproof, h⟩ := bind_eq_ok.mp h
    refine (target_of_inStep (@servers_twin _ _ _ env env.stale (twin_self r₁) _ _) h).trans ?_
    unfold Env.wildcardProof at hproof
    split at hproof
    · exact addNSEC3Cover_target hproof
    · cases hproof
      rfl

/-! ## Referrals -/

/-- No name with NS records has NSEC3 records, or signatures over some. -/
def Env.HashesApart (env : Env) : Prop :=
  ∀ c, env.Shows c dnsTNs → ∀ f ∈ env.visible c false, f.type ≠ dnsTNsec3 ∧ f.signs dnsTNsec3 = false

/-- Then `addNSEC3` finds nothing to copy at a delegation. -/
theorem addNSEC3_apart (apart : env.HashesApart) {c : Name} (servers : env.Shows c dnsTNs)
    {fs : List Found} (found : env.find c false = fs.map some) (r : Response) :
    env.addNSEC3 c r = .ok r := by
  unfold Env.addNSEC3
  split
  · rw [found]
    have hstep : ∀ f ∈ fs, env.nsec3Step c f r = .ok r := by
      intro f hf
      obtain ⟨htype, hsigns⟩ := apart c servers f (visible_eq found ▸ hf)
      unfold Env.nsec3Step
      rw [if_neg htype, hsigns, Bool.and_false, if_neg Bool.false_ne_true]
    clear found
    induction fs with
    | nil => rfl
    | cons f fs ih =>
      rw [List.map_cons, each, hstep f List.mem_cons_self]
      exact ih fun g hg => hstep g (List.mem_cons_of_mem _ hg)
  · rfl

theorem servers_whole (apart : env.HashesApart) {flagauthoritative : Bool} {control : Name}
    (valid : Valid control) (shows : env.Shows control dnsTNs ∨ flagauthoritative = true)
    {r r' : Response} (h : env.servers flagauthoritative control r = .ok r') :
    EmitsSome .authority r r' := by
  rcases shows with shows | home
  · unfold Env.servers at h
    split at h
    · obtain ⟨s, hloop, h⟩ := bind_eq_ok.mp h
      obtain ⟨fs, hfs, hsome⟩ := each_run (P := fun _ u => EmitsSome .authority r u.1) (.refl _ r)
        (fun _ f u u' hmem hdone hbody => hdone.trans
          (nsStep_some valid (found_read valid.labels hmem).typeOctets hbody)) hloop
      simp only [addNSEC3_apart apart shows hfs] at h
      split at h <;> cases h <;> exact hsome
    · cases h
      exact .refl _ _
  · exact servers_some valid (.inr home) h

/-- **The authority part adds records to the authority section**, in referrals too. -/
theorem authority_whole (apart : env.HashesApart) {q : Name} {z : Zone} (valid : Valid z.control)
    (shows : env.Shows z.control dnsTNs) {a : Answer}
    (target : env.doDnssec = true → ∀ n, a.nsec3 = some n → Valid n) {wild : Name} {anpos : Nat}
    (away : z.flagauthoritative = false → env.provesWildcard q z wild = false) {r r' : Response}
    (h : env.authority q z a wild anpos r = .ok r') : EmitsSome .authority r r' := by
  cases hauth : z.flagauthoritative with
  | true => exact authority_some valid target (.inr hauth) h
  | false =>
    unfold Env.authority Env.delegation Env.wildcardProof at h
    rw [away hauth, hauth] at h
    exact servers_whole apart valid (.inl shows) h

/-! ## The additional section -/

/-- What `finish` leaves is no longer than what it was given room for, and upholds the beginning. -/
theorem finish_upholds {flagauthoritative : Bool} {anpos aupos : Nat} {r₀ r r' : Response}
    {question : Name} {log : Log} (h₀ : Upholds r₀ r) (header : 12 ≤ r₀.bytes.length)
    (idle : Idle r question log) (behind : r₀.bytes.length ≤ aupos) (reach : aupos ≤ r.bytes.length)
    (h : env.finish flagauthoritative anpos aupos r = .ok r') :
    Upholds r₀ r' ∧ r'.bytes.length ≤ 65535 := by
  unfold Env.finish at h
  obtain ⟨r₁, hopt, h⟩ := bind_eq_ok.mp h
  obtain ⟨r₂, hservers, h⟩ := bind_eq_ok.mp h
  cases h
  obtain ⟨es, hes⟩ := (addOpt_some hopt).trans (addServers_some hservers)
  obtain ⟨idle₂, grown⟩ := hes question log idle trivial
  have htarget : r₂.tctarget = r.tctarget :=
    (target_of_inStep (@addServers_twin _ _ _ env env.stale (twin_self r₁) _ _ _) hservers).trans
      (target_of_inStep (@addOpt_twin _ _ _ env env.stale (twin_self r)) hopt)
  have hall := h₀.trans (upholds_of_extends grown idle₂.header htarget)
  have hlen := grown.length_le idle₂.header
  have hlimit := idle₂.limit
  have hlonger := h₀.length
  have hcut := cutBack_upholds hall header .additional hlonger hlen
  have hcutLen := cutBack_length .additional (header.trans hlonger) hlen
  unfold Env.shorten
  simp only []
  split
  · split
    · have hreach : aupos ≤ (cutBack .additional r.bytes.length r₂).bytes.length := reach.trans hcutLen.ge
      have hlast := cutBack_length .authority (header.trans behind) hreach
      exact ⟨cutBack_upholds hcut header .authority behind hreach, by omega⟩
    · exact ⟨hcut, by omega⟩
  · exact ⟨hall, hlimit⟩

/-! ## A lookup -/

/-- A reply that is a message, on the question of the response it began with. -/
structure Ends (r r' : Response) (question : Name) : Prop extends Upholds r r' where
  limit : r'.bytes.length ≤ 65535
  message : ∃ log, Says r'.bytes question log

theorem ends_of_idle {r r' : Response} {question : Name} {log : Log} (h : Idle r' question log)
    (upholds : Upholds r r') : Ends r r' question :=
  ⟨upholds, h.limit, log, h.message⟩

theorem close_ends (apart : env.HashesApart) {q : Name} {z : Zone} (valid : Valid z.control)
    (shows : env.Shows z.control dnsTNs) {a : Answer}
    (target : env.doDnssec = true → ∀ n, a.nsec3 = some n → Valid n) {wild : Name} {anpos : Nat}
    {r₀ r r' : Response} {question : Name} {log : Log} (idle : Idle r question log)
    (fresh : log.authority = []) (empty : log.additional = []) (h₀ : Upholds r₀ r)
    (header : 12 ≤ r₀.bytes.length)
    (away : z.flagauthoritative = false → env.provesWildcard q z wild = false)
    (h : env.close q z a wild anpos r = .ok r') : Ends r₀ r' question := by
  have hsome (r₁ : Response) (h₁ : env.authority q z a wild anpos r = .ok r₁) :
      EmitsSome .authority r r₁ := authority_whole apart valid shows target away h₁
  obtain ⟨_, _, log', hauthority, idle₁, grown, _, _, hfinished⟩ :=
    close_spec idle fresh empty hsome h
  unfold Env.close at h
  obtain ⟨r₁, hsame, h⟩ := bind_eq_ok.mp h
  rw [hauthority] at hsame
  cases hsame
  have hlen := grown.length_le idle₁.header
  have hupholds := h₀.trans (upholds_of_extends grown idle₁.header (authority_target hauthority))
  obtain ⟨hends, hlimit⟩ := finish_upholds hupholds header idle₁ h₀.length hlen h
  exact ⟨hends, hlimit, log', hfinished.message⟩

/-- **Whatever `doit` replies is a message** on the question it was called with. -/
theorem doit_ends (apart : env.HashesApart) {qtype : Bytes} {fuel : Nat} {cname : Bool} {draws : Nat}
    {q question : Name} (valid : Valid q) {r₀ r r' : Response} {log : Log} (idle : Idle r question log)
    (fresh : log.authority = []) (empty : log.additional = []) (h₀ : Upholds r₀ r)
    (header : 12 ≤ r₀.bytes.length) (h : env.doit qtype fuel cname draws q r = .ok r') :
    Ends r₀ r' question := by
  induction fuel generalizing cname draws q r log with
  | zero => cases h
  | succ fuel ih =>
    have hclear : Upholds r₀ (clearAa r) := h₀.trans (clearAa_upholds idle.header)
    unfold Env.doit at h
    simp only [] at h
    split at h
    · cases h
    · cases cname with
      | false => cases h
      | true =>
        cases h
        exact ends_of_idle idle.clearAa hclear
    · rename_i z hz
      obtain ⟨hnearest, hsoa, _⟩ := zone_nearest hz
      have hcontrol := valid.suffix hnearest.above
      split at h
      · rename_i hauth
        obtain ⟨⟨r₁, a₁, stop⟩, hanswers, h⟩ := bind_eq_ok.mp h
        have hstopped := answers_stopped valid (List.suffix_refl q) hnearest.above rfl hanswers
        have hvisited := hstopped.visited valid
        obtain ⟨es, hes⟩ := hvisited.answers
        obtain ⟨hidle, hgrown⟩ := hes question log idle ⟨fresh, empty⟩
        have htarget : r₁.tctarget = r.tctarget := target_of_inStepWith
          (@answers_twin _ _ _ env env.stale (twin_self r) q qtype z.control q (.start draws)) hanswers
        have hupholds : Upholds r₀ r₁ := h₀.trans (upholds_of_extends hgrown hidle.header htarget)
        simp only [] at h
        split at h
        · rename_i target hcname
          split at h
          · cases h
          · rw [hvisited.alias] at hcname
            exact ih (lastFollowed_valid hcname) hidle fresh empty hupholds h
        · have hnsec3 : env.doDnssec = true → ∀ n, a₁.nsec3 = some n → Valid n :=
            fun hdns n hn => hvisited.nsec3_valid hdns hn
          have haway : z.flagauthoritative = false → env.provesWildcard q z stop = false :=
            fun hno => absurd hauth (by rw [hno]; exact Bool.false_ne_true)
          split at h
          · exact close_ends apart hcontrol hnearest.servers hnsec3 hidle fresh empty hupholds header
              haway h
          · exact close_ends apart hcontrol hnearest.servers hnsec3 hidle.nxdomain fresh empty
              (hupholds.trans (nxdomain_upholds hidle.header)) header haway h
      · refine close_ends apart hcontrol hnearest.servers (fun _ n hn => by cases hn) idle.clearAa fresh
          empty hclear header (fun _ => ?_) h
        unfold Env.provesWildcard
        rw [decide_eq_false (fun hne => hne rfl), Bool.and_false, Bool.false_and]

theorem respond_ends (apart : env.HashesApart) {q question : Name} {qtype : Bytes} (valid : Valid q)
    {r r' : Response} (idle : Idle r question {}) (h : env.respond q qtype r = .ok r') :
    Ends r r' question :=
  doit_ends apart valid idle rfl rfl (.refl r) idle.header h

end TinyDnssec.Lookup
