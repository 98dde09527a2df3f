import TinyDnssec.Lookup.Sections

/-!
# The answer loop

Where the zone search ends, and where the answer loop ends. `Nearest` is the zone of a name;
`answers_stopped` says that the loop stops at the first node with records of its kind, or where it
may go no further, and that the nodes it passed on the way do not matter to what it answers.

What the records of the node are worth to the client is left to `Selection` and `Addresses`.
-/

namespace TinyDnssec.Lookup

open Octets Loop

variable {env : Env}

/-! ## The zone -/

/-- The name has a visible plain record of this type. -/
def Env.Shows (env : Env) (d : Name) (type : Bytes) : Prop :=
  ∃ f ∈ env.visible d false, f.type = type

/-- `control` is the nearest ancestor of `q` that has NS records, `q` itself included. -/
structure Env.Nearest (env : Env) (q control : Name) : Prop where
  above : control <:+ q
  servers : env.Shows control dnsTNs
  nearest : ∀ b, b <:+ q → control <:+ b → b ≠ control → ¬env.Shows b dnsTNs

theorem any_type_iff {fs : List Found} {type : Bytes} :
    (fs.any fun f => decide (f.type = type)) = true ↔ ∃ f ∈ fs, f.type = type := by
  rw [List.any_eq_true]
  exact exists_congr fun f => and_congr_right fun _ => decide_eq_true_iff

/-- **The zone search finds the nearest ancestor with NS records.** -/
theorem zone_nearest {q : Name} {z : Zone} (h : env.zone q = some (some z)) :
    env.Nearest q z.control ∧ (z.flagauthoritative = true ↔ env.Shows z.control dnsTSoa) ∧
      (z.flagsigned = true ↔ env.Shows z.control dnsTDnskey ∧ env.Shows z.control dnsTRrsig ∧
        env.Shows z.control dnsTNsec3param) := by
  induction q with
  | nil =>
    unfold Env.zone at h
    split at h
    · cases h
    · rename_i fs hfs
      have hvisible := visible_eq (complete_eq_some.mp hfs)
      simp only [] at h
      split at h
      · rename_i hns
        cases h
        simp only [Env.Shows, hvisible, Bool.and_eq_true, any_type_iff, and_assoc]
        refine ⟨⟨List.suffix_refl _, ?_, fun b hb _ hne => absurd (List.suffix_nil.mp hb) hne⟩,
          trivial, trivial⟩
        unfold Env.Shows
        rw [hvisible]
        exact any_type_iff.mp hns
      · cases h
  | cons l up ih =>
    unfold Env.zone at h
    split at h
    · cases h
    · rename_i fs hfs
      have hvisible := visible_eq (complete_eq_some.mp hfs)
      simp only [] at h
      split at h
      · rename_i hns
        cases h
        simp only [Env.Shows, hvisible, Bool.and_eq_true, any_type_iff, and_assoc]
        refine ⟨⟨List.suffix_refl _, ?_, fun b hb hc hne => ?_⟩, trivial, trivial⟩
        · unfold Env.Shows
          rw [hvisible]
          exact any_type_iff.mp hns
        · exact absurd (hb.eq_of_length_le hc.length_le) hne
      · rename_i hns
        obtain ⟨⟨habove, hservers, hnearest⟩, hflags⟩ := ih h
        refine ⟨⟨habove.trans (List.suffix_cons l up), hservers, fun b hb hc hne => ?_⟩, hflags⟩
        rcases List.suffix_cons_iff.mp hb with rfl | hb
        · unfold Env.Shows
          rw [hvisible]
          exact mt any_type_iff.mpr hns
        · exact hnearest b hb hc hne

theorem Env.Nearest.unique {q control control' : Name} (h : env.Nearest q control)
    (h' : env.Nearest q control') : control = control' := by
  rcases List.suffix_or_suffix_of_suffix h.above h'.above with hle | hle
  · by_contra hne
    exact h.nearest control' h'.above hle (Ne.symm hne) h'.servers
  · by_contra hne
    exact h'.nearest control h.above hle hne h.servers

/-! ## One record -/

/-- The CNAME record that is followed, where there are several: the last. -/
def lastFollowed (qtype : Bytes) (fs : List Found) : Option Name :=
  fs.reverse.findSome? (followed qtype)

theorem lastFollowed_concat (qtype : Bytes) (fs : List Found) (f : Found) :
    lastFollowed qtype (fs ++ [f]) = (followed qtype f).or (lastFollowed qtype fs) := by
  unfold lastFollowed
  rw [List.reverse_append, List.findSome?_append]
  simp

theorem lastFollowed_eq_none {qtype : Bytes} {fs : List Found}
    (h : ∀ f ∈ fs, followed qtype f = none) : lastFollowed qtype fs = none :=
  List.findSome?_eq_none_iff.mpr fun f hf => h f (List.mem_reverse.mp hf)

theorem lastFollowed_valid {qtype : Bytes} {fs : List Found} {target : Name}
    (h : lastFollowed qtype fs = some target) : Valid target := by
  obtain ⟨f, _, hf⟩ := List.exists_of_findSome?_eq_some h
  unfold followed at hf
  split at hf
  · obtain ⟨⟨_, _⟩, hread, rfl⟩ := Option.map_eq_some_iff.mp hf
    exact dnsPacketGetname_valid hread
  · cases hf

theorem followed_other {qtype : Bytes} {f : Found} (other : f.type ≠ dnsTCname) :
    followed qtype f = none :=
  if_neg fun h => other h.1

/-- A CNAME record is always wanted. -/
theorem wanted_cname {qtype : Bytes} {f : Found} (cname : f.type = dnsTCname) :
    env.wanted qtype f = true := by
  unfold Env.wanted
  rw [cname]
  have hrrsig : decide (dnsTCname = dnsTRrsig) = false := by decide
  have hhash : (decide (dnsTCname = dnsTHashref) || decide (dnsTCname = dnsTHashlist)) = false := by
    decide
  simp [hrrsig, hhash]

/-- `noteHashref` changes `nsec3` alone. -/
theorem noteHashref_spec {f : Found} {s s' : Response × Answer} (h : env.noteHashref f s = .ok s') :
    s'.1 = s.1 ∧ s'.2 = { s.2 with nsec3 := s'.2.nsec3 } ∧
      (env.doDnssec = true → hashref f = none ∧ s'.2.nsec3 = s.2.nsec3 ∨
        ∃ n, hashref f = some (some n) ∧ s'.2.nsec3 = some n) := by
  unfold Env.noteHashref at h
  unfold hashref
  split at h
  · rename_i href
    split at h
    · cases h
    · rename_i target _ hread
      cases h
      refine ⟨rfl, rfl, fun _ => .inr ⟨target, ?_, rfl⟩⟩
      rw [if_pos href.2, hread]
      rfl
  · rename_i href
    cases h
    refine ⟨rfl, rfl, fun hdns => .inl ⟨if_neg fun hf => href ⟨hdns, hf⟩, rfl⟩⟩

/-- What one record does to the variables of the loop. -/
structure Turned (env : Env) (qtype : Bytes) (f : Found) (s s' : Response × Answer) : Prop where
  answers : EmitsSome .answer s.1 s'.1
  flagfound : s'.2.flagfound = true
  /-- a record that is not asked for is not sent -/
  silent : env.wanted qtype f = false → s'.1 = s.1 ∧ s'.2.pool = s.2.pool ∧ s'.2.pool6 = s.2.pool6
  flagcname : s'.2.flagcname = (followed qtype f).or s.2.flagcname
  nsec3 : env.doDnssec = true → hashref f = none ∧ s'.2.nsec3 = s.2.nsec3 ∨
    ∃ n, hashref f = some (some n) ∧ s'.2.nsec3 = some n

theorem answerStep_turned {q : Name} (valid : Valid q) {qtype : Bytes} {f : Found}
    (two : f.type.length = 2) {s s' : Response × Answer} (h : env.answerStep q qtype f s = .ok s') :
    Turned env qtype f s s' := by
  unfold Env.answerStep at h
  split at h
  · rename_i hsoa
    cases h
    have hother : f.type ≠ dnsTCname := by
      rw [hsoa.2]
      decide
    refine ⟨.refl _ _, rfl, fun _ => ⟨rfl, rfl, rfl⟩, ?_, fun _ => .inl ⟨if_neg ?_, rfl⟩⟩
    · rw [followed_other hother]
      rfl
    · rintro ⟨htype, _⟩
      rw [hsoa.2] at htype
      exact absurd htype (by decide)
  · obtain ⟨⟨r, a⟩, hnote, h⟩ := bind_eq_ok.mp h
    obtain ⟨hr, ha, hnsec3⟩ := noteHashref_spec hnote
    have hr : r = s.1 := hr
    have ha : a = { s.2 with flagfound := true, nsec3 := a.nsec3 } := ha
    have hnsec3 : env.doDnssec = true → hashref f = none ∧ a.nsec3 = s.2.nsec3 ∨
        ∃ n, hashref f = some (some n) ∧ a.nsec3 = some n := hnsec3
    have hfound : a.flagfound = true := by rw [ha]
    have hpool : a.pool = s.2.pool := by rw [ha]
    have hpool6 : a.pool6 = s.2.pool6 := by rw [ha]
    have hcname : a.flagcname = s.2.flagcname := by rw [ha]
    have hkept (other : f.type ≠ dnsTCname) : a.flagcname = (followed qtype f).or s.2.flagcname := by
      rw [followed_other other, hcname]
      rfl
    subst hr
    simp only [] at h
    split at h
    · rename_i hunwanted
      cases h
      refine ⟨.refl _ _, hfound, fun _ => ⟨rfl, hpool, hpool6⟩, hkept fun htype => ?_, hnsec3⟩
      rw [wanted_cname htype] at hunwanted
      cases hunwanted
    · rename_i hwanted
      have hsent : ¬env.wanted qtype f = false := fun hw => hwanted (by rw [hw]; rfl)
      split at h
      · rename_i haddress
        cases h
        refine ⟨.refl _ _, hfound, fun hw => absurd hw hsent, hkept ?_, hnsec3⟩
        rw [haddress.1]
        decide
      · split at h
        · rename_i haddress
          cases h
          refine ⟨.refl _ _, hfound, fun hw => absurd hw hsent, hkept ?_, hnsec3⟩
          rw [haddress.1]
          decide
        · obtain ⟨r₁, hemit, h⟩ := bind_eq_ok.mp h
          cases h
          refine ⟨emit_some valid two hemit, hfound, fun hw => absurd hw hsent, ?_, hnsec3⟩
          show (followed qtype f).or a.flagcname = _
          rw [hcname]

/-! ## One node -/

theorem addPool_spec {q : Name} (valid : Valid q) {type : Bytes} (two : type.length = 2) {pool : Pool}
    {r r' : Response} (h : addPool q type pool r = .ok r') :
    Emits .answer (pool.kept.map fun ip => ⟨q, type, dnsCIn, pool.addrttl, [.octets ip]⟩) r r' := by
  unfold addPool at h
  obtain ⟨ips, hips, hemits⟩ := each_emits
    (fun ip t t' _ hstep => emit_toList valid (f := ⟨type, pool.addrttl, ip, 0⟩) two hstep) h
  have hsame : pool.kept = ips := List.map_injective_iff.mpr (Option.some_injective _) hips
  rw [hsame, List.map_eq_flatMap]
  exact hemits

/-- What records do to the variables of the loop, one after another. -/
structure Visited (env : Env) (qtype : Bytes) (fs : List Found) (s s' : Response × Answer) : Prop where
  answers : EmitsSome .answer s.1 s'.1
  flagfound : s'.2.flagfound = true ↔ s.2.flagfound = true ∨ fs ≠ []
  silent : (∀ f ∈ fs, env.wanted qtype f = false) →
    s'.1 = s.1 ∧ s'.2.pool = s.2.pool ∧ s'.2.pool6 = s.2.pool6
  flagcname : s'.2.flagcname = (lastFollowed qtype fs).or s.2.flagcname
  target : env.doDnssec = true → ∀ n, s'.2.nsec3 = some n →
    s.2.nsec3 = some n ∨ ∃ f ∈ fs, hashref f = some (some n)
  refers : env.doDnssec = true → (s.2.nsec3 ≠ none ∨ ∃ f ∈ fs, hashref f ≠ none) →
    s'.2.nsec3 ≠ none

theorem Visited.start (env : Env) (qtype : Bytes) (s : Response × Answer) :
    Visited env qtype [] s s where
  answers := .refl _ _
  flagfound := ⟨.inl, fun h => h.resolve_right fun h => h rfl⟩
  silent := fun _ => ⟨rfl, rfl, rfl⟩
  flagcname := rfl
  target := fun _ _ h => .inl h
  refers := by
    rintro _ (h | ⟨f, hf, _⟩)
    · exact h
    · exact absurd hf List.not_mem_nil

theorem Visited.turn {qtype : Bytes} {done : List Found} {f : Found} {s t t' : Response × Answer}
    (h : Visited env qtype done s t) (turned : Turned env qtype f t t') :
    Visited env qtype (done ++ [f]) s t' where
  answers := h.answers.trans turned.answers
  flagfound := iff_of_true turned.flagfound
    (.inr (List.append_ne_nil_of_right_ne_nil _ (List.cons_ne_nil _ _)))
  silent := by
    intro hsilent
    obtain ⟨hr, hpool, hpool6⟩ := h.silent fun g hg => hsilent g (List.mem_append_left _ hg)
    obtain ⟨hr', hpool', hpool6'⟩ := turned.silent
      (hsilent f (List.mem_append_right _ (List.mem_singleton_self f)))
    exact ⟨hr'.trans hr, hpool'.trans hpool, hpool6'.trans hpool6⟩
  flagcname := by
    rw [turned.flagcname, h.flagcname, lastFollowed_concat, Option.or_assoc]
  target := by
    intro hdns n hn
    rcases turned.nsec3 hdns with ⟨_, hsame⟩ | ⟨m, href, hm⟩
    · rcases h.target hdns n (hsame ▸ hn) with hs | ⟨g, hg, hgn⟩
      · exact .inl hs
      · exact .inr ⟨g, List.mem_append_left _ hg, hgn⟩
    · rw [hm] at hn
      cases hn
      exact .inr ⟨f, List.mem_append_right _ (List.mem_singleton_self f), href⟩
  refers := by
    intro hdns hsome
    rcases turned.nsec3 hdns with ⟨hnone, hsame⟩ | ⟨m, _, hm⟩
    · rw [hsame]
      refine h.refers hdns (hsome.imp_right ?_)
      rintro ⟨g, hg, hgref⟩
      rcases List.mem_append.mp hg with hg | hg
      · exact ⟨g, hg, hgref⟩
      · rw [List.mem_singleton.mp hg] at hgref
        exact absurd hnone hgref
    · rw [hm]
      exact Option.some_ne_none m

/-- More answers, and nothing else, keep what is said of the variables. -/
theorem Visited.addPools {qtype : Bytes} {fs : List Found} {s : Response × Answer} {r r' : Response}
    {a : Answer} (h : Visited env qtype fs s (r, a)) (more : EmitsSome .answer r r')
    (silent : a.pool = s.2.pool → a.pool6 = s.2.pool6 → r' = r) :
    Visited env qtype fs s (r', a) where
  answers := h.answers.trans more
  flagfound := h.flagfound
  silent := by
    intro hsilent
    obtain ⟨hr, hpool, hpool6⟩ := h.silent hsilent
    exact ⟨(silent hpool hpool6).trans hr, hpool, hpool6⟩
  flagcname := h.flagcname
  target := h.target
  refers := h.refers

/-- The variables at the top of a node. -/
def atNode (s : Response × Answer) : Response × Answer :=
  (s.1, { s.2 with pool := .empty, pool6 := .empty })

theorem addPool_empty (q : Name) (type : Bytes) (r : Response) : addPool q type .empty r = .ok r :=
  rfl

/-- **What the answer loop does at one node.** -/
theorem answerNode_visited {q : Name} (valid : Valid q) {qtype : Bytes} {wild : Name}
    (labels : ∀ l ∈ wild, ValidLabel l) {s s' : Response × Answer}
    (h : env.answerNode q qtype wild s = .ok s') :
    ∃ fs, env.find wild (decide (wild ≠ q)) = fs.map some ∧ Visited env qtype fs (atNode s) s' := by
  unfold Env.answerNode at h
  obtain ⟨⟨r, a⟩, hloop, h⟩ := bind_eq_ok.mp h
  obtain ⟨r₁, hpool, h⟩ := bind_eq_ok.mp h
  obtain ⟨r₂, hpool6, h⟩ := bind_eq_ok.mp h
  cases h
  obtain ⟨fs, hfs, hvisited⟩ := each_run (P := fun done t => Visited env qtype done (atNode s) t)
    (.start env qtype _) (fun done f t t' hmem hdone hstep =>
      hdone.turn (answerStep_turned valid (found_read labels hmem).typeOctets hstep)) hloop
  refine ⟨fs, hfs, hvisited.addPools ?_ fun hempty hempty6 => ?_⟩
  · exact .trans ⟨_, addPool_spec valid rfl hpool⟩ ⟨_, addPool_spec valid rfl hpool6⟩
  · rw [show a.pool = .empty from hempty, addPool_empty] at hpool
    rw [show a.pool6 = .empty from hempty6, addPool_empty] at hpool6
    cases hpool
    cases hpool6
    rfl

/-! ## The walk -/

theorem answerNode_nil {q wild : Name} {qtype : Bytes} {s : Response × Answer}
    (h : env.find wild (decide (wild ≠ q)) = []) :
    env.answerNode q qtype wild s = .ok (atNode s) := by
  unfold Env.answerNode
  rw [h]
  rfl

theorem not_none_mem_map (fs : List Found) : none ∉ fs.map some := by
  intro h
  obtain ⟨_, _, hbad⟩ := List.mem_map.mp h
  cases hbad

/-- Where the loop over one kind of records met no failure, the other kind has none either. -/
theorem visible_ne_nil {d : Name} (labels : ∀ l ∈ d, ValidLabel l) {flagwild : Bool}
    {fs : List Found} (h : env.find d flagwild = fs.map some) {other : Bool}
    (some : env.find d other ≠ []) : env.visible d other ≠ [] := by
  obtain ⟨x, hx⟩ := List.exists_mem_of_ne_nil _ some
  cases x with
  | none =>
    have hlong := (none_mem_find labels other).mp hx
    have hnone := (none_mem_find labels flagwild).mpr hlong
    rw [h] at hnone
    exact absurd hnone (not_none_mem_map fs)
  | some f => exact List.ne_nil_of_mem (mem_visible.mpr hx)

/-- **The answer loop stops** at the first node with records of its kind, at the zone's name, or at a
node with plain records above the query name; the nodes passed before have none, and it answers as
if it had begun at the last. -/
structure Stopped (env : Env) (q : Name) (qtype : Bytes) (control wild : Name) (r : Response)
    (a : Answer) (r' : Response) (a' : Answer) (stop : Name) : Prop where
  above : control <:+ stop
  below : stop <:+ wild
  node : ∃ b, atNode (r, b) = atNode (r, a) ∧ env.answerNode q qtype stop (r, b) = .ok (r', a')
  passed : ∀ b, b <:+ wild → stop <:+ b → b ≠ stop →
    env.visible b (decide (b ≠ q)) = [] ∧ (b ≠ q → env.visible b false = [])
  unfound : a'.flagfound = false → env.visible stop (decide (stop ≠ q)) = [] ∧
    (stop = control ∨ stop ≠ q ∧ env.visible stop false ≠ [])

theorem answers_stopped {q : Name} (valid : Valid q) {qtype : Bytes} {control wild : Name}
    {r r' : Response} {a a' : Answer} {stop : Name} (below : wild <:+ q) (above : control <:+ wild)
    (unfound : a.flagfound = false)
    (h : env.answers q qtype control wild (r, a) = .ok (r', a', stop)) :
    Stopped env q qtype control wild r a r' a' stop := by
  induction wild generalizing r a with
  | nil =>
    have hcontrol : control = [] := List.suffix_nil.mp above
    unfold Env.answers at h
    obtain ⟨⟨r₁, a₁⟩, hnode, h⟩ := bind_eq_ok.mp h
    obtain ⟨fs, hfs, hvisited⟩ := answerNode_visited valid (fun _ h => absurd h List.not_mem_nil) hnode
    have h : (if a₁.flagfound = true ∨ [] = control then Except.ok (r₁, a₁, []) else _) =
      Except.ok (r', a', stop) := h
    rw [if_pos (Or.inr hcontrol.symm)] at h
    cases h
    refine ⟨above, List.suffix_refl _, ⟨a, rfl, hnode⟩, fun b hb _ hne => ?_, fun hnone => ?_⟩
    · exact absurd (List.suffix_nil.mp hb) hne
    · have hnil : fs = [] := by
        by_contra hne
        rw [hvisited.flagfound.mpr (.inr hne)] at hnone
        cases hnone
      rw [visible_eq hfs, hnil]
      exact ⟨rfl, .inl hcontrol.symm⟩
  | cons l up ih =>
    have hlabels := (valid.suffix below).labels
    unfold Env.answers at h
    obtain ⟨⟨r₁, a₁⟩, hnode, h⟩ := bind_eq_ok.mp h
    obtain ⟨fs, hfs, hvisited⟩ := answerNode_visited valid hlabels hnode
    have hself {P : Name → Prop} : ∀ b, b <:+ l :: up → l :: up <:+ b → b ≠ l :: up → P b := by
      intro b hb hc hne
      exact absurd (hb.eq_of_length_le hc.length_le) hne
    have hnil : a₁.flagfound = false → fs = [] := by
      intro hnone
      by_contra hne
      rw [hvisited.flagfound.mpr (.inr hne)] at hnone
      cases hnone
    simp only [] at h
    split at h
    · rename_i hstop
      cases h
      refine ⟨above, List.suffix_refl _, ⟨a, rfl, hnode⟩, hself, fun hnone => ?_⟩
      rw [visible_eq hfs, hnil hnone]
      refine ⟨rfl, .inl (hstop.resolve_left ?_)⟩
      rw [hnone]
      exact Bool.false_ne_true
    · rename_i hgo
      have hunfound : a₁.flagfound = false := by
        by_contra hne
        exact hgo (.inl ((Bool.not_eq_false _).mp hne))
      have hother : control ≠ l :: up := fun heq => hgo (.inr heq.symm)
      split at h
      · rename_i hplain
        cases h
        refine ⟨above, List.suffix_refl _, ⟨a, rfl, hnode⟩, hself, fun _ => ?_⟩
        rw [visible_eq hfs, hnil hunfound]
        exact ⟨rfl, .inr ⟨hplain.1, visible_ne_nil hlabels hfs hplain.2⟩⟩
      · rename_i hplain
        have hempty : env.find (l :: up) (decide (l :: up ≠ q)) = [] := by
          rw [hfs, hnil hunfound]
          rfl
        rw [answerNode_nil hempty] at hnode
        cases hnode
        have habove : control <:+ up := (List.suffix_cons_iff.mp above).resolve_left hother
        have hrest := ih ((List.suffix_cons l up).trans below) habove hunfound h
        refine ⟨hrest.above, hrest.below.trans (List.suffix_cons l up), hrest.node,
          fun b hb hc hne => ?_, hrest.unfound⟩
        rcases List.suffix_cons_iff.mp hb with rfl | hb
        · refine ⟨by unfold Env.visible; rw [hempty]; rfl, fun hq => ?_⟩
          have hfind : env.find (l :: up) false = [] := by
            by_contra hne
            exact hplain ⟨hq, hne⟩
          unfold Env.visible
          rw [hfind]
          rfl
        · exact hrest.passed b hb hc hne

/-! ## A loop from its start -/

section

variable {qtype : Bytes} {fs : List Found} {draws : Nat} {r r' : Response} {a : Answer}

/-- What the loop comes to is up to the node where it stops. -/
theorem Stopped.visited {q : Name} (valid : Valid q) {control stop : Name}
    (h : Stopped env q qtype control q r (.start draws) r' a stop) :
    Visited env qtype (env.visible stop (decide (stop ≠ q))) (r, .start draws) (r', a) := by
  obtain ⟨b, hb, hnode⟩ := h.node
  obtain ⟨fs, hfs, hvisited⟩ := answerNode_visited valid (valid.suffix h.below).labels hnode
  rw [visible_eq hfs]
  rw [hb] at hvisited
  exact hvisited

theorem Visited.alias (h : Visited env qtype fs (r, .start draws) (r', a)) :
    a.flagcname = lastFollowed qtype fs :=
  h.flagcname.trans Option.or_none

theorem Visited.nothing (h : Visited env qtype [] (r, .start draws) (r', a)) :
    a.flagfound = false ∧ r' = r := by
  refine ⟨?_, (h.silent fun f hf => absurd hf List.not_mem_nil).1⟩
  rw [← Bool.not_eq_true]
  intro hfound
  rcases h.flagfound.mp hfound with hfound | hne
  · exact Bool.false_ne_true hfound
  · exact hne rfl

theorem Visited.nsec3_valid (h : Visited env qtype fs (r, .start draws) (r', a))
    (dnssec : env.doDnssec = true) {n : Name} (some : a.nsec3 = some n) : Valid n := by
  rcases h.target dnssec n some with hbefore | ⟨f, _, href⟩
  · cases hbefore
  · exact hashref_valid href

end

end TinyDnssec.Lookup
