import TinyDnssec.Lookup.Answers

/-!
# Which node answers

Without DNSSEC, and where no CNAME is to be followed: which node a query is answered from, and what
the answer is. `Selected` says it of the database alone; `respond_selects` says that `respond` does
it, for every database, name, type, client and time.

Of the addresses of a node at most eight are sent, drawn at random; whatever is drawn, they are
eight of the node's addresses, or all of them (`Pool.Holds`). They go out with the ttl of the last
one found.

What becomes of the authority section is not said here, nor what a client with DNSSEC is sent in it.
-/

namespace TinyDnssec.Lookup

open Octets Loop

variable {env : Env}

/-! ## Addresses -/

/-- The pool is a choice from these records. -/
structure Pool.Holds (pool : Pool) (fs : List Found) : Prop where
  slots : pool.addr.length = 8
  num : pool.addrnum = min fs.length 1000000
  kept : pool.kept.Subperm (fs.map Found.rdata)
  ttl : ∀ f ∈ fs.getLast?, pool.addrttl = f.ttl

theorem Pool.holds_empty : Pool.empty.Holds [] where
  slots := rfl
  num := rfl
  kept := List.nil_subperm
  ttl := fun _ h => by cases h

theorem Pool.Holds.kept_length {pool : Pool} {fs : List Found} (h : pool.Holds fs) :
    pool.kept.length = min fs.length 8 := by
  unfold Pool.kept
  rw [List.length_take, h.slots, h.num]
  omega

/-- Writing over one element exchanges it for another. -/
theorem set_append_perm {α : Type} {l : List α} {i : Nat} (h : i < l.length) (x : α) :
    (l.set i x ++ [l[i]]).Perm (l ++ [x]) := by
  calc (l.set i x ++ [l[i]]).Perm (x :: l.eraseIdx i ++ [l[i]]) :=
        (List.set_perm_cons_eraseIdx h x).append_right _
    _ |>.Perm (x :: (l[i] :: l.eraseIdx i)) := (List.perm_append_singleton _ _).cons x
    _ |>.Perm (x :: l) := (List.getElem_cons_eraseIdx_perm h).cons x
    _ |>.Perm (l ++ [x]) := (List.perm_append_singleton x l).symm

theorem take_set_succ {α : Type} {l : List α} {n : Nat} (h : n < l.length) (x : α) :
    (l.set n x).take (n + 1) = l.take n ++ [x] := by
  have hset : n < (l.set n x).length := h.trans_eq List.length_set.symm
  rw [List.take_succ_eq_append_getElem hset, List.take_set_of_le (Nat.le_refl n),
    List.getElem_set_self]

/-- As long as there are free slots, every address is kept. -/
theorem Pool.kept_few {pool : Pool} (slots : pool.addr.length = 8) {i : Nat}
    (drawn : i ≤ pool.addrnum) (few : pool.addrnum < 8) (ip : Bytes) (ttl : Nat) :
    (pool.place i ip ttl).kept.Perm (pool.kept ++ [ip]) := by
  unfold Pool.kept Pool.place
  simp only []
  have hcount : min (if pool.addrnum < 1000000 then pool.addrnum + 1 else pool.addrnum) 8 =
      pool.addrnum + 1 := by
    rw [if_pos (by omega)]
    omega
  have hkept : min pool.addrnum 8 = pool.addrnum := by omega
  have hlen : (pool.addr.take pool.addrnum).length = pool.addrnum := by
    rw [List.length_take]
    omega
  rw [hcount, hkept, if_pos (Nat.lt_of_le_of_lt drawn few)]
  by_cases hi : i < pool.addrnum
  · have hin : i < (pool.addr.take pool.addrnum).length := hi.trans_eq hlen.symm
    have hmoved : pool.addr.getD i [] = (pool.addr.take pool.addrnum)[i] := by
      rw [List.getElem_take, List.getD_eq_getElem _ _ (by omega)]
    rw [if_pos ⟨hi, few⟩, List.take_set, take_set_succ (by omega), List.set_append_left _ _ hin,
      hmoved]
    exact set_append_perm hin ip
  · have heq : i = pool.addrnum := by omega
    rw [if_neg (fun h => hi h.1), heq, take_set_succ (by omega)]

/-- The octets kept after one more address are of those kept before and the new one. -/
theorem Pool.kept_place {pool : Pool} (slots : pool.addr.length = 8) {i : Nat}
    (drawn : i ≤ pool.addrnum) (ip : Bytes) (ttl : Nat) :
    (pool.place i ip ttl).kept.Subperm (pool.kept ++ [ip]) := by
  by_cases hfew : pool.addrnum < 8
  · exact (Pool.kept_few slots drawn hfew ip ttl).subperm
  · unfold Pool.kept Pool.place
    simp only []
    have hcount : min (if pool.addrnum < 1000000 then pool.addrnum + 1 else pool.addrnum) 8 = 8 := by
      split <;> omega
    have hkept : min pool.addrnum 8 = 8 := by omega
    rw [hcount, hkept, if_neg (show ¬(i < pool.addrnum ∧ pool.addrnum < 8) from fun h => hfew h.2),
      List.take_of_length_le slots.le]
    split
    · rename_i hi
      have hin : i < pool.addr.length := hi.trans_eq slots.symm
      rw [List.take_of_length_le (List.length_set.trans slots).le]
      exact (List.sublist_append_left _ _).subperm.trans (set_append_perm hin ip).subperm
    · rw [List.take_of_length_le slots.le]
      exact (List.sublist_append_left _ _).subperm

theorem Pool.place_slots {pool : Pool} (slots : pool.addr.length = 8) (i : Nat) (ip : Bytes)
    (ttl : Nat) : (pool.place i ip ttl).addr.length = 8 := by
  unfold Pool.place
  simp only []
  split
  · split
    · rw [List.length_set, List.length_set, slots]
    · rw [List.length_set, slots]
  · exact slots

theorem Pool.Holds.place {pool : Pool} {fs : List Found} (h : pool.Holds fs) {i : Nat}
    (drawn : i ≤ pool.addrnum) (f : Found) :
    (pool.place i f.rdata f.ttl).Holds (fs ++ [f]) where
  slots := Pool.place_slots h.slots i f.rdata f.ttl
  num := by
    show (if pool.addrnum < 1000000 then pool.addrnum + 1 else pool.addrnum) = _
    have hnum := h.num
    rw [List.length_append, List.length_singleton]
    split <;> omega
  kept := by
    rw [List.map_append, List.map_singleton]
    exact (Pool.kept_place h.slots drawn f.rdata f.ttl).trans ((List.subperm_append_right _).mpr h.kept)
  ttl := by
    intro g hg
    rw [List.getLast?_append, List.getLast?_singleton] at hg
    cases hg
    rfl

/-! ## What is asked for -/

/-- A record of a type that is asked for. The helper types are for the server alone. -/
def asked (qtype : Bytes) (f : Found) : Bool :=
  (decide (f.type = qtype) || decide (qtype = dnsTAny)) &&
    !(decide (f.type = dnsTHashref) || decide (f.type = dnsTHashlist))

/-- Every SOA record but the first is dropped; `seen` tells whether there was one. -/
def firstSoa : Bool → List Found → List Found
  | _, [] => []
  | seen, f :: fs =>
    if f.type = dnsTSoa then
      if seen then firstSoa true fs else f :: firstSoa true fs
    else f :: firstSoa seen fs

/-- The records of a node that answer a query. -/
def chosen (qtype : Bytes) (fs : List Found) : List Found := firstSoa false (fs.filter (asked qtype))

def isAddress (type : Bytes) (len : Nat) (f : Found) : Bool :=
  decide (f.type = type) && decide (f.rdata.length = len)

/-- A record that is sent as it is. -/
def isPlain (f : Found) : Bool := !isAddress dnsTA 4 f && !isAddress dnsTAaaa 16 f

theorem firstSoa_snoc (seen : Bool) (fs : List Found) (f : Found) :
    firstSoa seen (fs ++ [f]) = firstSoa seen fs ++
      if f.type = dnsTSoa ∧ (seen = true ∨ ∃ g ∈ firstSoa seen fs, g.type = dnsTSoa) then [] else [f] := by
  induction fs generalizing seen with
  | nil =>
    show (if f.type = dnsTSoa then if seen = true then [] else [f] else [f]) = if _ then [] else [f]
    by_cases hsoa : f.type = dnsTSoa
    · rw [if_pos hsoa]
      refine if_congr ?_ rfl rfl
      refine ⟨fun h => ⟨hsoa, .inl h⟩, fun h => h.2.resolve_right ?_⟩
      rintro ⟨_, hg, _⟩
      cases hg
    · rw [if_neg hsoa, if_neg (fun h => hsoa h.1)]
  | cons g fs ih =>
    rw [List.cons_append]
    unfold firstSoa
    by_cases hg : g.type = dnsTSoa
    · rw [if_pos hg, if_pos hg, ih]
      cases seen with
      | true => rw [if_pos rfl, if_pos rfl]
      | false =>
        rw [if_neg Bool.false_ne_true, if_neg Bool.false_ne_true, List.cons_append]
        congr 1
        congr 1
        refine if_congr (and_congr_right fun _ => iff_of_true (.inl rfl) (.inr ?_)) rfl rfl
        exact ⟨g, List.mem_cons_self, hg⟩
    · rw [if_neg hg, if_neg hg, ih, List.cons_append]
      congr 1
      congr 1
      refine if_congr (and_congr_right fun _ => or_congr_right ?_) rfl rfl
      rw [List.exists_mem_cons_iff]
      exact (or_iff_right hg).symm

theorem chosen_snoc_skip {qtype : Bytes} {fs : List Found} {f : Found}
    (skip : asked qtype f = false ∨ f.type = dnsTSoa ∧ ∃ g ∈ chosen qtype fs, g.type = dnsTSoa) :
    chosen qtype (fs ++ [f]) = chosen qtype fs := by
  unfold chosen
  rw [List.filter_append, List.filter_singleton]
  cases hasked : asked qtype f with
  | false => rw [cond_false, List.append_nil]
  | true =>
    obtain ⟨htype, hseen⟩ := skip.resolve_left (by rw [hasked]; exact Bool.noConfusion)
    rw [cond_true, firstSoa_snoc, if_pos ⟨htype, .inr hseen⟩, List.append_nil]

theorem chosen_snoc {qtype : Bytes} {fs : List Found} {f : Found} (hasked : asked qtype f = true)
    (fresh : ¬(f.type = dnsTSoa ∧ ∃ g ∈ chosen qtype fs, g.type = dnsTSoa)) :
    chosen qtype (fs ++ [f]) = chosen qtype fs ++ [f] := by
  unfold chosen
  rw [List.filter_append, List.filter_singleton, hasked, cond_true, firstSoa_snoc, if_neg]
  rintro ⟨htype, hfalse | hseen⟩
  · cases hfalse
  · exact fresh ⟨htype, hseen⟩

/-! ## The loop at the selected node -/

/-- The records of a node that are sent as they are. -/
def plainEntries (q : Name) (qtype : Bytes) (fs : List Found) : List Entry :=
  ((chosen qtype fs).filter isPlain).flatMap fun f => (entryOf q (answerShape f) f).toList

/-- What the loop has collected from some records of a node. -/
structure Collected (q : Name) (qtype : Bytes) (fs : List Found) (s s' : Response × Answer) : Prop where
  emits : Emits .answer (plainEntries q qtype fs) s.1 s'.1
  decoded : ∀ f ∈ (chosen qtype fs).filter isPlain, (entryOf q (answerShape f) f).isSome = true
  soa : s'.2.flaggavesoa = true ↔ ∃ f ∈ chosen qtype fs, f.type = dnsTSoa
  pool : s'.2.pool.Holds ((chosen qtype fs).filter (isAddress dnsTA 4))
  pool6 : s'.2.pool6.Holds ((chosen qtype fs).filter (isAddress dnsTAaaa 16))

theorem Collected.start (q : Name) (qtype : Bytes) {s : Response × Answer}
    (fresh : s.2.flaggavesoa = false) : Collected q qtype [] (atNode s) (atNode s) where
  emits := .refl _ _
  decoded := fun _ h => absurd h List.not_mem_nil
  soa := by
    show s.2.flaggavesoa = true ↔ _
    rw [fresh]
    refine iff_of_false Bool.false_ne_true ?_
    rintro ⟨_, hf, _⟩
    exact absurd hf List.not_mem_nil
  pool := Pool.holds_empty
  pool6 := Pool.holds_empty

/-- A record that is passed over changes nothing. -/
theorem Collected.skip {q : Name} {qtype : Bytes} {fs : List Found} {f : Found}
    {s t t' : Response × Answer} (h : Collected q qtype fs s t)
    (skip : asked qtype f = false ∨ f.type = dnsTSoa ∧ ∃ g ∈ chosen qtype fs, g.type = dnsTSoa)
    (response : t'.1 = t.1) (soa : t'.2.flaggavesoa = t.2.flaggavesoa) (pool : t'.2.pool = t.2.pool)
    (pool6 : t'.2.pool6 = t.2.pool6) : Collected q qtype (fs ++ [f]) s t' := by
  have hchosen := chosen_snoc_skip skip
  refine ⟨?_, ?_, ?_, ?_, ?_⟩
  · unfold plainEntries
    rw [hchosen, response]
    exact h.emits
  · rw [hchosen]
    exact h.decoded
  · rw [hchosen, soa]
    exact h.soa
  · rw [hchosen, pool]
    exact h.pool
  · rw [hchosen, pool6]
    exact h.pool6

theorem filter_snoc (p : Found → Bool) (fs : List Found) (f : Found) :
    (fs ++ [f]).filter p = fs.filter p ++ if p f then [f] else [] := by
  rw [List.filter_append, List.filter_singleton]
  cases p f <;> rfl

/-- One more record that is asked for: what becomes of each part of the answer. -/
theorem Collected.add {q : Name} {qtype : Bytes} {fs : List Found} {f : Found}
    {s t t' : Response × Answer} (h : Collected q qtype fs s t) (hasked : asked qtype f = true)
    (fresh : ¬(f.type = dnsTSoa ∧ ∃ g ∈ chosen qtype fs, g.type = dnsTSoa))
    (emits : Emits .answer (if isPlain f then (entryOf q (answerShape f) f).toList else []) t.1 t'.1)
    (decoded : isPlain f = true → (entryOf q (answerShape f) f).isSome = true)
    (soa : t'.2.flaggavesoa = true ↔ t.2.flaggavesoa = true ∨ f.type = dnsTSoa)
    (pool : t'.2.pool.Holds ((chosen qtype fs).filter (isAddress dnsTA 4) ++
      if isAddress dnsTA 4 f then [f] else []))
    (pool6 : t'.2.pool6.Holds ((chosen qtype fs).filter (isAddress dnsTAaaa 16) ++
      if isAddress dnsTAaaa 16 f then [f] else [])) :
    Collected q qtype (fs ++ [f]) s t' := by
  have hchosen := chosen_snoc hasked fresh
  refine ⟨?_, ?_, ?_, ?_, ?_⟩
  · unfold plainEntries
    rw [hchosen, filter_snoc, List.flatMap_append]
    refine h.emits.trans ?_
    split
    · rename_i hplain
      rw [if_pos hplain] at emits
      rw [List.flatMap_singleton]
      exact emits
    · rename_i hplain
      rw [if_neg hplain] at emits
      exact emits
  · rw [hchosen, filter_snoc]
    intro g hg
    rcases List.mem_append.mp hg with hg | hg
    · exact h.decoded g hg
    · split at hg
      · rename_i hplain
        rw [List.mem_singleton.mp hg]
        exact decoded hplain
      · cases hg
  · rw [soa, h.soa, hchosen]
    constructor
    · rintro (⟨g, hg, htype⟩ | htype)
      · exact ⟨g, List.mem_append_left _ hg, htype⟩
      · exact ⟨f, List.mem_append_right _ (List.mem_singleton_self f), htype⟩
    · rintro ⟨g, hg, htype⟩
      rcases List.mem_append.mp hg with hg | hg
      · exact .inl ⟨g, hg, htype⟩
      · exact .inr (List.mem_singleton.mp hg ▸ htype)
  · rw [hchosen, filter_snoc]
    exact pool
  · rw [hchosen, filter_snoc]
    exact pool6

theorem isAddress_iff {type : Bytes} {len : Nat} {f : Found} :
    isAddress type len f = true ↔ f.type = type ∧ f.data.length - f.dpos = len := by
  unfold isAddress Found.rdata
  rw [Bool.and_eq_true, decide_eq_true_iff, decide_eq_true_iff, List.length_drop]

/-- An address is not one of the other kind, and is not sent as it is. -/
theorem isAddress_type {f : Found} {type : Bytes} {len : Nat} (h : isAddress type len f = true)
    {other : Bytes} (ne : type ≠ other) (len' : Nat) : isAddress other len' f = false := by
  rw [← Bool.not_eq_true, isAddress_iff]
  intro hother
  exact ne ((isAddress_iff.mp h).1.symm.trans hother.1)

theorem isPlain_iff {f : Found} :
    isPlain f = true ↔ isAddress dnsTA 4 f = false ∧ isAddress dnsTAaaa 16 f = false := by
  unfold isPlain
  rw [Bool.and_eq_true, Bool.not_eq_true', Bool.not_eq_true']

/-- Without DNSSEC, and apart from CNAMEs, what is wanted is what is asked for. -/
theorem wanted_eq_asked (plain : env.doDnssec = false) {qtype : Bytes} {f : Found}
    (noCname : f.type ≠ dnsTCname) : env.wanted qtype f = asked qtype f := by
  unfold Env.wanted asked
  rw [plain, decide_eq_false noCname, Bool.false_and, Bool.false_and, Bool.false_and, Bool.or_false,
    Bool.or_false, Bool.not_false, Bool.and_true]

theorem noteHashref_plain (plain : env.doDnssec = false) (f : Found) (s : Response × Answer) :
    env.noteHashref f s = .ok s := by
  unfold Env.noteHashref
  rw [plain]
  exact if_neg fun h => Bool.false_ne_true h.1

theorem dnsRandom_le (env : Env) (draws n : Nat) : env.dnsRandom draws n ≤ n :=
  Nat.le_of_lt_succ (Nat.mod_lt _ (Nat.succ_pos n))

/-- **One record of the selected node** is collected as the answer needs it. -/
theorem Collected.step {q : Name} (valid : Valid q) {qtype : Bytes} (plain : env.doDnssec = false)
    {fs : List Found} {f : Found} (two : f.type.length = 2) (noCname : f.type ≠ dnsTCname)
    {s t t' : Response × Answer} (h : Collected q qtype fs s t)
    (step : env.answerStep q qtype f t = .ok t') : Collected q qtype (fs ++ [f]) s t' := by
  unfold Env.answerStep at step
  split at step
  · rename_i hsoa
    cases step
    exact h.skip (.inr ⟨hsoa.2, h.soa.mp hsoa.1⟩) rfl rfl rfl rfl
  · rename_i hsoa
    have hfresh : ¬(f.type = dnsTSoa ∧ ∃ g ∈ chosen qtype fs, g.type = dnsTSoa) :=
      fun ⟨htype, hseen⟩ => hsoa ⟨h.soa.mpr hseen, htype⟩
    rw [noteHashref_plain plain] at step
    obtain ⟨⟨r, a⟩, hnote, step⟩ := bind_eq_ok.mp step
    cases hnote
    simp only [wanted_eq_asked plain noCname, plain, Bool.not_false, true_or, and_true] at step
    split at step
    · rename_i hskip
      cases step
      exact h.skip (.inl (by simpa only [Bool.not_eq_true'] using hskip)) rfl rfl rfl rfl
    · rename_i hasked
      have hasked : asked qtype f = true := by simpa only [Bool.not_eq_true', Bool.not_eq_false] using hasked
      have hsame {a' : Answer} (ha' : a'.flaggavesoa = t.2.flaggavesoa) (htype : f.type ≠ dnsTSoa) :
          a'.flaggavesoa = true ↔ t.2.flaggavesoa = true ∨ f.type = dnsTSoa := by
        rw [ha']
        exact (or_iff_left htype).symm
      split at step
      · rename_i hA
        cases step
        have hA := isAddress_iff.mpr hA
        have hother := isAddress_type hA (show dnsTA ≠ dnsTAaaa by decide) 16
        have hplain : ¬isPlain f = true := by
          rw [isPlain_iff, hA]
          exact fun h => Bool.noConfusion h.1
        have htype : f.type ≠ dnsTSoa := by
          rw [(isAddress_iff.mp hA).1]
          decide
        refine h.add hasked hfresh ?_ (fun hp => absurd hp hplain) (hsame rfl htype) ?_ ?_
        · rw [if_neg hplain]
          exact .refl _ _
        · rw [if_pos hA]
          exact h.pool.place (dnsRandom_le _ _ _) f
        · rw [hother, if_neg Bool.false_ne_true, List.append_nil]
          exact h.pool6
      · rename_i hA
        have hA := (Bool.not_eq_true _).mp (mt isAddress_iff.mp hA)
        split at step
        · rename_i hAaaa
          cases step
          have hAaaa := isAddress_iff.mpr hAaaa
          have hplain : ¬isPlain f = true := by
            rw [isPlain_iff, hAaaa]
            exact fun h => Bool.noConfusion h.2
          have htype : f.type ≠ dnsTSoa := by
            rw [(isAddress_iff.mp hAaaa).1]
            decide
          refine h.add hasked hfresh ?_ (fun hp => absurd hp hplain) (hsame rfl htype) ?_ ?_
          · rw [if_neg hplain]
            exact .refl _ _
          · rw [hA, if_neg Bool.false_ne_true, List.append_nil]
            exact h.pool
          · rw [if_pos hAaaa]
            exact h.pool6.place (dnsRandom_le _ _ _) f
        · rename_i hAaaa
          have hAaaa := (Bool.not_eq_true _).mp (mt isAddress_iff.mp hAaaa)
          obtain ⟨r, hemit, step⟩ := bind_eq_ok.mp step
          cases step
          obtain ⟨e, he, hemits⟩ := emit_emits valid two hemit
          refine h.add hasked hfresh ?_ (fun _ => by rw [he]; rfl) ?_ ?_ ?_
          · rw [if_pos (isPlain_iff.mpr ⟨hA, hAaaa⟩), he]
            exact hemits
          · show (_ || decide _) = true ↔ _
            rw [Bool.or_eq_true, decide_eq_true_iff]
          · rw [hA, if_neg Bool.false_ne_true, List.append_nil]
            exact h.pool
          · rw [hAaaa, if_neg Bool.false_ne_true, List.append_nil]
            exact h.pool6

/-- At most eight of some addresses, with the ttl of the last. -/
structure Reduced (fs : List Found) (ttl : Nat) (ips : List Bytes) : Prop where
  among : ips.Subperm (fs.map Found.rdata)
  count : ips.length = min fs.length 8
  last : ∀ f ∈ fs.getLast?, ttl = f.ttl

theorem Pool.Holds.reduced {pool : Pool} {fs : List Found} (h : pool.Holds fs) :
    Reduced fs pool.addrttl pool.kept :=
  ⟨h.kept, h.kept_length, h.ttl⟩

def addressEntry (q : Name) (type : Bytes) (ttl : Nat) (ip : Bytes) : Entry :=
  ⟨q, type, dnsCIn, ttl, [.octets ip]⟩

/-- **The answer section is made from these records**: those that are asked for, of the SOA records
only the first, as they are; of the four-octet A records and of the sixteen-octet AAAA records at
most eight. -/
def AnswersFrom (q : Name) (qtype : Bytes) (fs : List Found) (answer : List Entry) : Prop :=
  (∀ f ∈ (chosen qtype fs).filter isPlain, (entryOf q (answerShape f) f).isSome = true) ∧
    ∃ ttl ips ttl6 ips6, Reduced ((chosen qtype fs).filter (isAddress dnsTA 4)) ttl ips ∧
      Reduced ((chosen qtype fs).filter (isAddress dnsTAaaa 16)) ttl6 ips6 ∧
      answer = plainEntries q qtype fs ++ ips.map (addressEntry q dnsTA ttl) ++
        ips6.map (addressEntry q dnsTAaaa ttl6)

/-- What is collected at a node is emitted as its answer. -/
theorem answerNode_answers {q : Name} (valid : Valid q) {qtype : Bytes} (plain : env.doDnssec = false)
    {wild : Name} (labels : ∀ l ∈ wild, ValidLabel l) {s s' : Response × Answer}
    (fresh : s.2.flaggavesoa = false)
    (noCname : ∀ f ∈ env.visible wild (decide (wild ≠ q)), f.type ≠ dnsTCname)
    (h : env.answerNode q qtype wild s = .ok s') :
    ∃ answer, AnswersFrom q qtype (env.visible wild (decide (wild ≠ q))) answer ∧
      Emits .answer answer s.1 s'.1 := by
  unfold Env.answerNode at h
  obtain ⟨⟨r, a⟩, hloop, h⟩ := bind_eq_ok.mp h
  obtain ⟨r₁, hpool, h⟩ := bind_eq_ok.mp h
  obtain ⟨r₂, hpool6, h⟩ := bind_eq_ok.mp h
  cases h
  obtain ⟨fs, hfs, hcollected⟩ := each_run (P := fun done t => Collected q qtype done (atNode s) t)
    (.start q qtype fresh) (fun done f t t' hmem hdone hstep =>
      hdone.step valid plain (found_read labels hmem).typeOctets
        (noCname f (mem_visible.mpr hmem)) hstep) hloop
  rw [visible_eq hfs]
  refine ⟨_, ⟨hcollected.decoded, _, _, _, _, hcollected.pool.reduced, hcollected.pool6.reduced, rfl⟩, ?_⟩
  exact (hcollected.emits.trans (addPool_spec valid rfl hpool)).trans (addPool_spec valid rfl hpool6)

/-! ## The selected node -/

/-- **The node a query is answered from**: the name itself if it has a visible plain record;
otherwise the nearest ancestor, not above the zone's name, that has a visible wildcard record, if no
name in between has a visible plain record. -/
def Env.Selected (env : Env) (q control a : Name) : Prop :=
  (a = q ∧ env.visible q false ≠ []) ∨
    (env.visible q false = [] ∧ a ≠ q ∧ a <:+ q ∧ control <:+ a ∧ env.visible a true ≠ [] ∧
      ∀ b, b ≠ q → b ≠ a → b <:+ q → a <:+ b →
        env.visible b true = [] ∧ env.visible b false = [])

theorem Env.Selected.unique {q control a b : Name} (ha : env.Selected q control a)
    (hb : env.Selected q control b) : a = b := by
  rcases ha with ⟨rfl, hq⟩ | ⟨hq, haq, haBelow, _, haSome, haBetween⟩
  · rcases hb with ⟨rfl, _⟩ | ⟨hq', _⟩
    · rfl
    · exact absurd hq' hq
  · rcases hb with ⟨rfl, hq'⟩ | ⟨_, hbq, hbBelow, _, hbSome, hbBetween⟩
    · exact absurd hq hq'
    · by_contra hne
      rcases List.suffix_or_suffix_of_suffix haBelow hbBelow with h | h
      · exact hbSome (haBetween b hbq (Ne.symm hne) hbBelow h).1
      · exact haSome (hbBetween a haq hne haBelow h).1

theorem visible_decide_self (q : Name) :
    env.visible q (decide (q ≠ q)) = env.visible q false := by
  rw [decide_eq_false (fun h => h rfl)]

theorem visible_decide_other {q b : Name} (h : b ≠ q) :
    env.visible b (decide (b ≠ q)) = env.visible b true := by
  rw [decide_eq_true h]

/-- The node where the loop found something is the selected one. -/
theorem Stopped.selected {q : Name} {qtype : Bytes} {control : Name} {r r' : Response}
    {a a' : Answer} {stop : Name} (h : Stopped env q qtype control q r a r' a' stop)
    (some : env.visible stop (decide (stop ≠ q)) ≠ []) : env.Selected q control stop := by
  by_cases hstop : stop = q
  · subst hstop
    rw [visible_decide_self] at some
    exact .inl ⟨rfl, some⟩
  · rw [visible_decide_other hstop] at some
    have hq := (h.passed q (List.suffix_refl q) h.below (Ne.symm hstop)).1
    rw [visible_decide_self] at hq
    refine .inr ⟨hq, hstop, h.below, h.above, some, fun b hbq hbs hb hbelow => ?_⟩
    obtain ⟨hwild, hplain⟩ := h.passed b hb hbelow hbs
    rw [visible_decide_other hbq] at hwild
    exact ⟨hwild, hplain hbq⟩

/-- Where the loop found nothing, no node is selected. -/
theorem Stopped.not_selected {q : Name} {qtype : Bytes} {control : Name} {r r' : Response}
    {a a' : Answer} {stop : Name} (h : Stopped env q qtype control q r a r' a' stop)
    (unfound : a'.flagfound = false) {b : Name} : ¬env.Selected q control b := by
  obtain ⟨hempty, hwhy⟩ := h.unfound unfound
  have hpassed : ∀ c, c <:+ q → stop <:+ c → env.visible c (decide (c ≠ q)) = [] := by
    intro c hc hbelow
    by_cases heq : c = stop
    · rw [heq]
      exact hempty
    · exact (h.passed c hc hbelow heq).1
  have hq : env.visible q false = [] := by
    rw [← visible_decide_self]
    exact hpassed q (List.suffix_refl q) h.below
  rintro (⟨_, hsome⟩ | ⟨_, hbq, hb, hcontrol, hsome, hbetween⟩)
  · exact hsome hq
  · rcases List.suffix_or_suffix_of_suffix h.below hb with hle | hle
    · have hnone := hpassed b hb hle
      rw [visible_decide_other hbq] at hnone
      exact hsome hnone
    · rcases hwhy with rfl | ⟨hstop, hplain⟩
      · have hsame : b = stop := hle.eq_of_length_le hcontrol.length_le
        rw [← hsame, visible_decide_other hbq] at hempty
        exact hsome hempty
      · by_cases hsame : stop = b
        · rw [hsame, visible_decide_other hbq] at hempty
          exact hsome hempty
        · exact hplain (hbetween stop hstop hsame h.below hle).2

/-! ## The reply -/

/-- The response code of a message. -/
def rcode (buf : Bytes) : UInt8 := buf.getD 3 0 &&& 15

theorem rcode_congr {buf buf' : Bytes} (h : buf'[3]? = buf[3]?) : rcode buf' = rcode buf := by
  unfold rcode
  rw [List.getD_eq_getElem?_getD, List.getD_eq_getElem?_getD, h]

theorem rcode_nxdomain {r : Response} (header : 12 ≤ r.bytes.length) (fresh : rcode r.bytes = 0) :
    rcode (nxdomain r).bytes = 3 := by
  have hin : 2 + [r.bytes.getD 2 0 ||| 4, r.bytes.getD 3 0 ||| 3].length ≤ r.bytes.length :=
    Nat.le_trans (show 4 ≤ 12 by decide) header
  have hread := holds_patch hin 1 (r.bytes.getD 3 0 ||| 3) rfl
  have hread : (nxdomain r).bytes[3]? = some (r.bytes.getD 3 0 ||| 3) := hread
  have hor : ∀ b : UInt8, b &&& 15 = 0 → (b ||| 3) &&& 15 = 3 := by decide +kernel
  unfold rcode at fresh ⊢
  rw [List.getD_eq_getElem?_getD, hread]
  exact hor _ fresh

/-- **Node selection.** Without DNSSEC, let `q` lie in a zone of this server with the apex `control`,
and let the selected node have no visible CNAME record. Then a reply is NXDOMAIN exactly when no
node is selected, and its answer section is made from the visible records of the selected node, or
is empty when there is none. -/
theorem respond_selects (plain : env.doDnssec = false) {q question control : Name} {qtype : Bytes}
    (valid : Valid q) {r r' : Response} (idle : Idle r question {}) (fresh : rcode r.bytes = 0)
    (zone : env.Nearest q control) (home : env.Shows control dnsTSoa)
    (noCname : ∀ a, env.Selected q control a →
      ∀ f ∈ env.visible a (decide (a ≠ q)), f.type ≠ dnsTCname)
    (h : env.respond q qtype r = .ok r') :
    ∃ log, Says r'.bytes question log ∧
      (rcode r'.bytes = 3 ↔ ¬∃ a, env.Selected q control a) ∧
      (∀ a, env.Selected q control a →
        AnswersFrom q qtype (env.visible a (decide (a ≠ q))) log.answer) ∧
      ((¬∃ a, env.Selected q control a) → log.answer = []) := by
  unfold Env.respond Env.doit at h
  simp only [] at h
  split at h
  · cases h
  · cases h
  · rename_i z hz
    obtain ⟨hnearest, hsoa, _⟩ := zone_nearest hz
    have hcontrol := hnearest.unique zone
    have hauth : z.flagauthoritative = true := hsoa.mpr (hcontrol ▸ home)
    rw [if_pos hauth] at h
    obtain ⟨⟨r₁, a₁, stop⟩, hanswers, h⟩ := bind_eq_ok.mp h
    rw [hcontrol] at hanswers
    have hstopped := answers_stopped valid (List.suffix_refl q) zone.above rfl hanswers
    have hvisited := hstopped.visited valid
    have hclose {a : Answer} {wild : Name} {anpos : Nat} {r₀ : Response} {log : Log}
        (hidle : Idle r₀ question log) (hfresh : log.authority = []) (hempty : log.additional = [])
        (hgo : env.close q z a wild anpos r₀ = .ok r') :
        ∃ log', Says r'.bytes question log' ∧ log'.answer = log.answer ∧
          rcode r'.bytes = rcode r₀.bytes := by
      obtain ⟨r₂, log₂, log', _, _, hgrown, hanswer, _, hfinished⟩ :=
        close_spec hidle hfresh hempty (fun _ hauthority => authority_some
          (valid.suffix hnearest.above) (fun hdns => absurd hdns (by rw [plain]; decide))
          (.inl plain) hauthority) hgo
      exact ⟨log', hfinished.message, hfinished.answer.trans hanswer,
        rcode_congr ((hfinished.flags 3 (by decide)).trans (hgrown.flags 3 (by decide)))⟩
    by_cases hsome : env.visible stop (decide (stop ≠ q)) = []
    · rw [hsome] at hvisited
      obtain ⟨hunfound, hsame⟩ := hvisited.nothing
      have hnone : ¬∃ a, env.Selected q control a := fun ⟨_, ha⟩ =>
        hstopped.not_selected hunfound ha
      have hcname : a₁.flagcname = none := hvisited.alias
      simp only [hcname, hunfound, hsame, Bool.false_eq_true, if_false] at h
      obtain ⟨log', hsays, hanswer, hrcode⟩ := hclose idle.nxdomain rfl rfl h
      refine ⟨log', hsays, iff_of_true ?_ hnone, fun a ha => absurd ⟨a, ha⟩ hnone, fun _ => hanswer⟩
      rw [hrcode, rcode_nxdomain idle.header fresh]
    · have hselected := hstopped.selected hsome
      have hfound : a₁.flagfound = true := hvisited.flagfound.mpr (.inr hsome)
      have hcname : a₁.flagcname = none := by
        rw [hvisited.alias]
        exact lastFollowed_eq_none fun f hf => followed_other (noCname stop hselected f hf)
      obtain ⟨b, hb, hnode⟩ := hstopped.node
      have hlabels := (valid.suffix hstopped.below).labels
      have hgave : b.flaggavesoa = false :=
        congrArg (fun s : Response × Answer => s.2.flaggavesoa) hb
      obtain ⟨answer, hfrom, hemits⟩ :=
        answerNode_answers valid plain hlabels hgave (noCname stop hselected) hnode
      obtain ⟨hidle, hgrown⟩ := hemits question {} idle ⟨rfl, rfl⟩
      simp only [hcname, hfound, if_true] at h
      obtain ⟨log', hsays, hanswer, hrcode⟩ := hclose hidle rfl rfl h
      have hsome : ∃ a, env.Selected q control a := ⟨stop, hselected⟩
      refine ⟨log', hsays, iff_of_false ?_ (not_not_intro hsome), fun a ha => ?_,
        fun hnone => absurd hsome hnone⟩
      · rw [hrcode, rcode_congr (hgrown.flags 3 (by decide)), fresh]
        decide
      · rw [ha.unique hselected, hanswer]
        exact hfrom

/-- The zone `z`, with an address for every name below it. -/
def wildcardZone : Data.Database where
  records :=
    [Data.rr [[122]] dnsTSoa 60 (Data.ttdparse []) [0, 0] ([0, 0] ++ List.replicate 20 0),
      Data.rr [[122]] dnsTNs 60 (Data.ttdparse []) [0, 0] [0],
      Data.rr [[42], [122]] dnsTA 60 (Data.ttdparse []) [0, 0] [127, 0, 0, 1]]
  wellFormed := by decide +kernel

theorem respond_selects_wildcard :
    ∃ r r' log, responseQuery [[120], [122]] dnsTA dnsCIn ⟨[], [], 0, 0⟩ = .ok r ∧
      (Env.of wildcardZone false).respond [[120], [122]] dnsTA r = .ok r' ∧
      Says r'.bytes [[120], [122]] log ∧ rcode r'.bytes ≠ 3 ∧
      AnswersFrom [[120], [122]] dnsTA ((Env.of wildcardZone false).visible [[122]] true)
        log.answer := by
  obtain ⟨r, hr⟩ : ∃ r, responseQuery [[120], [122]] dnsTA dnsCIn ⟨[], [], 0, 0⟩ = .ok r :=
    exists_of_isOk rfl
  obtain ⟨r', hr'⟩ : ∃ r', (Env.of wildcardZone false).respond [[120], [122]] dnsTA r = .ok r' := by
    cases hr
    exact exists_of_isOk (by decide +kernel)
  have hvalid : Valid [[120], [122]] := by decide
  have habove : ∀ b : Name, b <:+ [[120], [122]] → [[122]] <:+ b → b ≠ [[122]] → b = [[120], [122]] := by
    intro b hb hc hne
    rcases List.suffix_cons_iff.mp hb with h | h
    · exact h
    · exact absurd (h.eq_of_length_le hc.length_le) hne
  have hzone : (Env.of wildcardZone false).Nearest [[120], [122]] [[122]] := by
    refine ⟨⟨[[120]], rfl⟩, ?_, fun b hb hc hne => ?_⟩
    · unfold Env.Shows
      decide +kernel
    · rw [habove b hb hc hne]
      unfold Env.Shows
      decide +kernel
  have hselected : (Env.of wildcardZone false).Selected [[120], [122]] [[122]] [[122]] := by
    refine .inr ⟨by decide +kernel, by decide, ⟨[[120]], rfl⟩, List.suffix_refl _, by decide +kernel,
      fun b hbq hbs hb hc => ?_⟩
    exact absurd (habove b hb hc hbs) hbq
  obtain ⟨log, hmessage, hrcode, hanswers, _⟩ := respond_selects rfl hvalid
    (responseQuery_idle hvalid rfl rfl hr) (by cases hr; decide +kernel) hzone
    (by unfold Env.Shows; decide +kernel) (fun a ha f hf => by
      rw [ha.unique hselected] at hf
      revert f
      decide +kernel) hr'
  exact ⟨r, r', log, hr, hr', hmessage, fun h => hrcode.mp h ⟨_, hselected⟩, hanswers _ hselected⟩

end TinyDnssec.Lookup
