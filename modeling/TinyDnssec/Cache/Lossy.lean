import TinyDnssec.Cache.Ring

/-!
# The cache as a lossy map

What a lookup returns is decided by the entries alone: the newest one with the key, among the
hundred and one newest of its bucket, unless it has expired. Over a whole history the entries are the
last ones that were stored, so a lookup gives back what the last call of `cache_set` for the key has
put there, or nothing. An entry is given up only for lack of room (`Keeps`): the ring holds no less than
its octets allow, but for the place that the longest entry may leave unused at the end. How often a key
is found again is not said; that is up to the calls.
-/

namespace TinyDnssec.Dnscache

open Octets XorList

variable {siphash : Bytes → UInt64}

/-! ## `cache_get` -/

/-- What a lookup makes of the entries of a bucket, from the newest on. -/
def answerOf (cur : Nat) (key : Bytes) (es : List Entry) : Option (Bytes × Nat) :=
  match es.find? fun e => decide (e.key = key) with
  | none => none
  | some e => if e.expire < cur then none else some (e.data, min (e.expire - cur) maxTtl)

theorem answerOf_cons (cur : Nat) (key : Bytes) (e : Entry) (es : List Entry) :
    answerOf cur key (e :: es) =
      if e.key = key then
        if e.expire < cur then none else some (e.data, min (e.expire - cur) maxTtl)
      else answerOf cur key es := by
  unfold answerOf
  by_cases hkey : e.key = key
  · rw [if_pos hkey, List.find?_cons, decide_eq_true hkey]
  · rw [if_neg hkey, List.find?_cons, decide_eq_false hkey]

/-- Entries without the key are passed by. -/
theorem answerOf_append {cur : Nat} {key : Bytes} {es es' : List Entry}
    (others : ∀ e ∈ es, e.key ≠ key) : answerOf cur key (es ++ es') = answerOf cur key es' := by
  induction es with
  | nil => rfl
  | cons e es ih =>
    rw [List.cons_append, answerOf_cons, if_neg (others e List.mem_cons_self)]
    exact ih fun e' he' => others e' (List.mem_cons_of_mem e he')

theorem answerOf_none {cur : Nat} {key : Bytes} {es : List Entry} (others : ∀ e ∈ es, e.key ≠ key) :
    answerOf cur key es = none := by
  rw [← List.append_nil es, answerOf_append others]
  rfl

section

variable {c : Cache} {older newer : List Entry} {p : Nat} {e : Entry}

/-- The entries of a ring at their places, from the oldest to the newest. -/
def placed (c : Cache) (older newer : List Entry) : List (Nat × Entry) :=
  places c.oldest older ++ places c.hsize newer

theorem places_entries (pos : Nat) (es : List Entry) : (places pos es).map Prod.snd = es := by
  induction es generalizing pos with
  | nil => rfl
  | cons e es ih => exact congrArg (e :: ·) (ih (pos + e.length))

theorem placed_entries : (placed c older newer).map Prod.snd = older ++ newer := by
  unfold placed
  rw [List.map_append, places_entries, places_entries]

/-- An entry of the ring stands inside the buffer, behind the table. -/
theorem Ring.entry_fits (h : Ring siphash c older newer) (mem : (p, e) ∈ placed c older newer) :
    0 < p ∧ p + e.length ≤ c.size := by
  have htable := h.table
  have hinside := h.stored.inside _ mem
  rw [h.whole] at hinside
  exact ⟨by omega, hinside.2⟩

theorem Ring.keyed (h : Ring siphash c older newer) (mem : (p, e) ∈ placed c older newer)
    (key : Bytes) : c.keyed key p = .ok (decide (e.key = key)) := by
  obtain ⟨hfour, hsmall⟩ := h.small
  obtain ⟨_, hfits⟩ := h.entry_fits mem
  have hupper := h.upper
  have hlen : e.key.length + e.data.length + 20 = e.length := rfl
  obtain ⟨hkeylen, _, _, hkey, _⟩ := e.fields (h.stored.bodies _ mem)
  unfold Cache.keyed
  rw [add32_eq (a := p) (b := 4) (by omega), get4_eq hfour hsmall (by omega), hkeylen]
  simp only [bind, Except.bind]
  by_cases hsame : e.key.length = key.length
  · have hend : add32 (add32 p 20) key.length = p + 20 + key.length := by
      rw [add32_eq (a := p) (b := 20) (by omega), add32_eq (by omega)]
    have hinside : ¬p + 20 + key.length > c.size := by omega
    rw [if_neg (not_not.mpr hsame), hend, if_neg hinside, ← hsame, hkey]
  · rw [if_pos hsame, decide_eq_false fun heq => hsame (congrArg List.length heq)]

theorem Ring.found (h : Ring siphash c older newer) (mem : (p, e) ∈ placed c older newer)
    (cur : Nat) :
    c.found e.key.length cur p =
      .ok (if e.expire < cur then none else some (e.data, min (e.expire - cur) maxTtl)) := by
  obtain ⟨hfour, hsmall⟩ := h.small
  obtain ⟨_, hfits⟩ := h.entry_fits mem
  have hupper := h.upper
  have hlen : e.key.length + e.data.length + 20 = e.length := rfl
  obtain ⟨_, hdatalen, hexpire, _, hdata⟩ := e.fields (h.stored.bodies _ mem)
  unfold Cache.found
  rw [hexpire]
  by_cases hdead : e.expire < cur
  · rw [if_pos hdead, if_pos hdead]
  · have hroom : sub32 (sub32 (sub32 c.size p) 20) e.key.length = c.size - p - 20 - e.key.length := by
      rw [sub32_eq (a := c.size) (b := p) (by omega), sub32_eq (b := 20) (by omega),
        sub32_eq (by omega)]
    have hshort : ¬e.data.length > c.size - p - 20 - e.key.length := by omega
    rw [if_neg hdead, if_neg hdead, add32_eq (a := p) (b := 8) (by omega),
      get4_eq hfour hsmall (by omega), hdatalen]
    simp only [bind, Except.bind]
    rw [hroom, if_neg hshort, hdata]

/-- **The walk along a list** comes by its entries in their order. -/
theorem Ring.walk (h : Ring siphash c older newer) (key : Bytes)
    (cur links : Nat) {items : List (Nat × Entry)} (mem : ∀ i ∈ items, i ∈ placed c older newer)
    {before here : Nat} (chain : Chain (link c.x) before here (items.map Prod.fst)) :
    c.walk key cur links here ((items.map Prod.fst).headD 0) =
      .ok (answerOf cur key ((items.map Prod.snd).take links)) := by
  obtain ⟨hfour, hsmall⟩ := h.small
  induction links generalizing items before here with
  | zero => rfl
  | succ links ih =>
    cases items with
    | nil => rfl
    | cons i items =>
      obtain ⟨p, e⟩ := i
      have hmem := mem _ List.mem_cons_self
      obtain ⟨hpos, hfits⟩ := h.entry_fits hmem
      have hlen := e.length_le
      have hnext := ih (fun i hi => mem i (List.mem_cons_of_mem _ hi)) chain.2
      rw [← chain.2.next] at hnext
      show c.walk key cur (links + 1) here p = .ok (answerOf cur key (e :: _))
      rw [Cache.walk, if_neg (by omega), h.keyed hmem key, answerOf_cons]
      simp only [bind, Except.bind]
      by_cases hkey : e.key = key
      · rw [decide_eq_true hkey, if_pos rfl, if_pos hkey, ← hkey]
        exact h.found hmem cur
      · rw [decide_eq_false hkey, if_neg Bool.false_ne_true, if_neg hkey,
          get4_eq hfour hsmall (by omega)]
        exact hnext

/-- The entries of a bucket, from the newest on. -/
def shelf (siphash : Bytes → UInt64) (hsize : Nat) (key : Bytes) (es : List Entry) : List Entry :=
  (es.filter fun e => hash siphash hsize e.key = hash siphash hsize key).reverse

theorem mem_shelf {hsize : Nat} {key : Bytes} {es : List Entry} (mem : e ∈ shelf siphash hsize key es) :
    e ∈ es :=
  List.mem_of_mem_filter (List.mem_reverse.mp mem)

/-- **A lookup** never stops at an impossible place, and what it returns is told by the entries. -/
theorem Ring.cacheGet (h : Ring siphash c older newer) (cur : Nat) (key : Bytes) :
    cacheGet siphash cur key c =
      .ok (answerOf cur key ((shelf siphash c.hsize key (older ++ newer)).take 101)) := by
  obtain ⟨hfour, hsmall⟩ := h.small
  have hhead := hash_isHead siphash h.stored.power key
  have hchain := h.stored.lists _ hhead
  have hfits : hash siphash c.hsize key + 4 ≤ c.size := h.whole ▸ h.stored.spot_lt (.inl hhead)
  have hfirst : link c.x (hash siphash c.hsize key) =
      ((bucket siphash c.hsize (placed c older newer) (hash siphash c.hsize key)).map
        Prod.fst).headD 0 := h.stored.link_head hhead
  have hentries : (bucket siphash c.hsize (placed c older newer)
      (hash siphash c.hsize key)).map Prod.snd = shelf siphash c.hsize key (older ++ newer) := by
    unfold bucket shelf
    rw [List.map_reverse, ← placed_entries (c := c), List.filter_map]
    rfl
  have hwalk := h.walk key cur 101 (fun i hi => (mem_bucket.mp hi).1) hchain
  rw [hentries] at hwalk
  unfold Dnscache.cacheGet
  by_cases hlong : key.length > maxKeyLen
  · rw [if_pos hlong, answerOf_none fun e _ hkey => ?_]
    rw [← hkey] at hlong
    exact absurd e.shortKey (Nat.not_le.mpr hlong)
  · rw [if_neg hlong, ← hwalk]
    simp only [get4_eq hfour hsmall hfits, bind, Except.bind, hfirst]

end

theorem answerOf_eq_some {cur : Nat} {key data : Bytes} {left : Nat} {es : List Entry}
    (h : answerOf cur key es = some (data, left)) : ∃ e ∈ es, e.key = key ∧ e.data = data := by
  unfold answerOf at h
  cases hfind : es.find? fun e => decide (e.key = key) with
  | none =>
    rw [hfind] at h
    cases h
  | some e =>
    have hkey : decide (e.key = key) = true :=
      @List.find?_some _ (fun e : Entry => decide (e.key = key)) _ _ hfind
    simp only [hfind] at h
    split at h
    · cases h
    · exact ⟨e, List.mem_of_find?_eq_some hfind, of_decide_eq_true hkey,
        (Prod.mk.inj (Option.some.inj h)).1⟩

/-- What a lookup gives is in an entry of the ring. -/
theorem Ring.cacheGet_entry {c : Cache} {older newer : List Entry} (h : Ring siphash c older newer)
    {cur : Nat} {key data : Bytes} {left : Nat}
    (live : Dnscache.cacheGet siphash cur key c = .ok (some (data, left))) :
    ∃ e ∈ older ++ newer, e.key = key ∧ e.data = data := by
  rw [h.cacheGet] at live
  obtain ⟨e, hmem, hspec⟩ := answerOf_eq_some (Except.ok.inj live)
  exact ⟨e, mem_shelf (List.mem_of_mem_take hmem), hspec⟩

/-! ## An empty cache -/

theorem doubled_spec {bound : Nat} (rounds : Nat) {h : Nat} (k : Nat) (power : h = 2 ^ (k + 2))
    (le : h ≤ 4 ∨ h ≤ bound * 2) (enough : bound < h * 2 ^ rounds) :
    (∃ k', doubled bound rounds h = 2 ^ (k' + 2)) ∧ bound < doubled bound rounds h ∧
      (doubled bound rounds h ≤ 4 ∨ doubled bound rounds h ≤ bound * 2) := by
  induction rounds generalizing h k with
  | zero => exact ⟨⟨k, power⟩, by rwa [Nat.pow_zero, Nat.mul_one] at enough, le⟩
  | succ rounds ih =>
    rw [doubled]
    by_cases hmore : h ≤ bound
    · rw [if_pos hmore]
      refine ih (k + 1) (by rw [power, ← Nat.pow_succ, Nat.add_right_comm])
        (.inr (Nat.mul_le_mul_right 2 hmore)) ?_
      rwa [Nat.mul_assoc, ← Nat.pow_succ']
    · rw [if_neg hmore]
      exact ⟨⟨k, power⟩, Nat.not_le.mp hmore, le⟩

/-- The octets of an empty cache are 0. -/
theorem link_replicate (n pos : Nat) : link (List.replicate n 0) pos = 0 := by
  unfold link
  rw [List.drop_replicate, List.take_replicate]
  generalize min 4 (n - pos) = k
  unfold unle
  rw [List.reverse_replicate]
  induction k with
  | zero => rfl
  | succ k ih =>
    rw [List.replicate_succ]
    exact ih

/-- **`cache_init`** leaves an empty ring, whatever size is asked for. -/
theorem cacheInit_ring (cachesize : Nat) : Ring siphash (cacheInit cachesize) [] [] := by
  have hsize : 100 ≤ max (min cachesize 1000000000) 100 ∧
      max (min cachesize 1000000000) 100 ≤ 1000000000 := by omega
  unfold cacheInit
  generalize max (min cachesize 1000000000) 100 = size at hsize
  obtain ⟨hpower, hmore, hle⟩ := @doubled_spec (size / 32) 32 4 0 rfl (.inl (Nat.le_refl 4))
    (by have hpow : 4 * 2 ^ 32 = 17179869184 := rfl; omega)
  have hfour : 4 ≤ doubled (size / 32) 32 4 := by
    obtain ⟨k, hk⟩ := hpower
    have hpos := Nat.two_pow_pos k
    rw [hk, Nat.pow_add]
    omega
  have hroom : doubled (size / 32) 32 4 ≤ size := by omega
  have htable : doubled (size / 32) 32 4 ≤ size / 16 := by omega
  refine ⟨hsize.1, hsize.2, List.length_replicate, ⟨hfour, htable⟩, rfl, hroom, rfl,
    Nat.le_refl _, fun _ => rfl, hpower, ?_, ?_, .nil, nofun, nofun, fun b _ => ?_⟩
  · rw [List.length_replicate]
    exact hroom
  · rw [List.length_replicate]
    omega
  · exact link_replicate size b

/-! ## Histories -/

/-- The entry that a call is meant to leave in a ring of so many octets. -/
def Call.entry (space : Nat) : Call → Option Entry
  | .set cur key data ttl => newEntry space cur.toNat key data ttl.toNat
  | .get _ _ => none

/-- All the entries that a history is meant to leave, from the oldest to the newest. -/
def entries (space : Nat) (calls : List Call) : List Entry := calls.filterMap (Call.entry space)

/-- The octets that a call makes room for. -/
def Call.asked : Call → List Nat
  | .set _ key data ttl => Dnscache.asked key data ttl.toNat
  | .get _ _ => []

/-- The octets that the calls of a history make room for, one after the other. -/
def askedBy (calls : List Call) : List Nat := calls.flatMap Call.asked

/-- What is kept of a history: each entry with all that came later, unless there was no room for it beside
what later calls asked for. -/
def Keeps (space : Nat) (calls : List Call) (kept : List Entry) : Prop :=
  ∀ earlier call later e, calls = earlier ++ call :: later → call.entry space = some e →
    (∃ rest, rest ++ e :: entries space later = kept) ∨ Crowded space e.length (askedBy later)

section

variable {c : Cache} {older newer : List Entry}

theorem Ring.run (h : Ring siphash c older newer) (call : Call) :
    ∃ c' older' newer', call.run siphash c = .ok c' ∧
      Shrunk siphash c c' (older ++ newer ++ (call.entry (c.size - c.hsize)).toList)
        older' newer' ∧
      (Packed c older newer 0 → Packed c' older' newer' 0 ∧ ∃ kept,
        older' ++ newer' = kept ++ (call.entry (c.size - c.hsize)).toList ∧
          GaveUp (c.size - c.hsize) call.asked (older ++ newer) kept) := by
  cases call with
  | set cur key data ttl => exact h.cacheSet cur.toNat key data ttl.toNat
  | get cur key =>
    have hnone : (Call.get cur key).entry (c.size - c.hsize) = none := rfl
    rw [hnone, Option.toList_none, List.append_nil]
    refine ⟨c, older, newer, ?_, ⟨h, rfl, rfl, List.suffix_refl _⟩,
      fun packed => ⟨packed, older ++ newer, (List.append_nil _).symm, .refl _ _ _⟩⟩
    show (Dnscache.cacheGet siphash cur.toNat key c >>= fun _ => Except.ok c) = Except.ok c
    rw [h.cacheGet]
    rfl

theorem runCalls_append (calls : List Call) (call : Call) :
    runCalls siphash (calls ++ [call]) c = (runCalls siphash calls c).bind (call.run siphash) := by
  induction calls generalizing c with
  | nil =>
    show (call.run siphash c >>= fun c => Except.ok c) = call.run siphash c
    exact bind_pure _
  | cons first calls ih =>
    show (first.run siphash c >>= fun c => runCalls siphash (calls ++ [call]) c) = _
    rw [runCalls]
    cases first.run siphash c with
    | error halt => rfl
    | ok c₁ => exact ih

/-- An entry is filed in the room that its call asks for. -/
theorem entries_sublist (space : Nat) (calls : List Call) :
    ((entries space calls).map Entry.length).Sublist (askedBy calls) := by
  induction calls with
  | nil => exact .slnil
  | cons call calls ih =>
    have hfirst : ((call.entry space).toList.map Entry.length).Sublist call.asked := by
      cases call with
      | set cur key data ttl => exact newEntry_asked
      | get cur key => exact .slnil
    have hsplit : entries space (call :: calls) = (call.entry space).toList ++ entries space calls := by
      unfold entries
      rw [List.filterMap_cons]
      cases call.entry space <;> rfl
    rw [hsplit, List.map_append]
    exact hfirst.append ih

theorem Crowded.mono {space len : Nat} {behind behind' : List Nat} (h : Crowded space len behind)
    (more : behind.Sublist behind') : Crowded space len behind' := by
  have hsum := more.sum_le_sum fun _ _ => Nat.zero_le _
  have hmax : behind.foldr max 0 ≤ behind'.foldr max 0 :=
    List.max_le_of_forall_le behind _ fun n hn => le_foldr_max (more.subset hn)
  unfold Crowded at h ⊢
  omega

/-- An entry in front of one that was given up had no room either. -/
theorem GaveUp.before {space : Nat} {asked : List Nat} {rest kept behind : List Entry} {e : Entry}
    (h : GaveUp space asked (rest ++ e :: behind) kept) (gone : kept <:+ behind) :
    Crowded space e.length (behind.map Entry.length ++ asked) := by
  obtain ⟨front, rfl⟩ := gone
  rcases List.eq_nil_or_concat front with rfl | ⟨front, d, rfl⟩
  · exact h rest e rfl
  · rw [List.concat_eq_append] at h ⊢
    have hcrowded := h (rest ++ e :: front) d (by simp only [List.append_assoc, List.cons_append,
      List.nil_append])
    have hsum : (((front ++ [d]) ++ kept).map Entry.length ++ asked).sum =
        total front + d.length + (kept.map Entry.length ++ asked).sum := by
      simp only [List.map_append, List.sum_append, total, List.map_cons, List.map_nil, List.sum_cons,
        List.sum_nil, Nat.add_zero, Nat.add_assoc]
    have hmax : (kept.map Entry.length ++ asked).foldr max 0 ≤
        (((front ++ [d]) ++ kept).map Entry.length ++ asked).foldr max 0 := by
      refine List.max_le_of_forall_le _ _ fun n hn => le_foldr_max ?_
      rw [List.map_append, List.append_assoc]
      exact List.mem_append_right _ hn
    unfold Crowded at hcrowded ⊢
    omega

/-- One more call keeps an entry, or asks for its room. -/
theorem Keeps.step {space : Nat} {calls : List Call} {call : Call} {before kept : List Entry}
    (h : Keeps space calls before) (suffix : kept <:+ before)
    (gave : GaveUp space call.asked before kept) :
    Keeps space (calls ++ [call]) (kept ++ (call.entry space).toList) := by
  intro earlier stored later e hsplit hentry
  rcases List.eq_nil_or_concat later with rfl | ⟨later, last, rfl⟩
  · obtain ⟨-, hlast⟩ := List.append_inj' hsplit rfl
    obtain rfl := (List.cons.inj hlast).1
    rw [hentry]
    exact .inl ⟨kept, rfl⟩
  · rw [List.concat_eq_append, ← List.cons_append, ← List.append_assoc] at hsplit
    obtain ⟨rfl, hlast⟩ := List.append_inj' hsplit rfl
    obtain rfl := (List.cons.inj hlast).1
    have hasked : askedBy (later.concat call) = askedBy later ++ call.asked := by
      unfold askedBy
      rw [List.concat_eq_append, List.flatMap_append, List.flatMap_singleton]
    have hentries : entries space (later.concat call) = entries space later ++ (call.entry space).toList := by
      unfold entries
      rw [List.concat_eq_append, List.filterMap_append]
      cases hcall : call.entry space <;> simp [List.filterMap, hcall]
    rw [hasked, hentries]
    rcases h earlier stored later e rfl hentry with ⟨rest, rfl⟩ | crowded
    · rcases List.suffix_or_suffix_of_suffix suffix (List.suffix_append rest (e :: entries space later))
        with short | ⟨rest', rfl⟩
      · rcases List.suffix_cons_iff.mp short with rfl | gone
        · exact .inl ⟨[], rfl⟩
        · refine .inr ((gave.before gone).mono ?_)
          exact (entries_sublist space later).append (.refl _)
      · exact .inl ⟨rest', by rw [List.append_assoc, List.cons_append]⟩
    · exact .inr (crowded.mono (List.sublist_append_left _ _))

/-- **A whole history** goes through: the entries of the ring are the last of those stored, and none was given
up while there was room for it. -/
theorem Ring.runCalls (h : Ring siphash c [] []) (calls : List Call) :
    ∃ c' older newer, runCalls siphash calls c = .ok c' ∧
      Shrunk siphash c c' (entries (c.size - c.hsize) calls) older newer ∧ Packed c' older newer 0 ∧
        Keeps (c.size - c.hsize) calls (older ++ newer) := by
  induction calls using List.reverseRecOn with
  | nil =>
    refine ⟨c, [], [], rfl, ⟨h, rfl, rfl, List.suffix_refl _⟩, fun hne => absurd rfl hne, ?_⟩
    intro earlier call later e hsplit
    exact absurd hsplit.symm (List.append_ne_nil_of_right_ne_nil earlier (List.cons_ne_nil _ _))
  | append_singleton calls call ih =>
    obtain ⟨c₁, older₁, newer₁, hrun₁, hshrunk₁, hpacked₁, hkeeps₁⟩ := ih
    obtain ⟨c', older', newer', hrun, hshrunk, hroom⟩ := hshrunk₁.ring.run call
    obtain ⟨hpacked, kept, hkept, hgave⟩ := hroom hpacked₁
    rw [hshrunk₁.size, hshrunk₁.hsize] at hkept hgave hshrunk
    have hentries : entries (c.size - c.hsize) (calls ++ [call]) =
        entries (c.size - c.hsize) calls ++ (call.entry (c.size - c.hsize)).toList := by
      unfold entries
      rw [List.filterMap_append]
      cases hcall : call.entry (c.size - c.hsize) <;> simp [List.filterMap, hcall]
    have hsuffix : kept <:+ older₁ ++ newer₁ := by
      obtain ⟨gone, hgone⟩ := hshrunk.suffix
      rw [hkept, ← List.append_assoc] at hgone
      exact ⟨gone, List.append_cancel_right hgone⟩
    refine ⟨c', older', newer', ?_, ⟨hshrunk.ring, hshrunk.size.trans hshrunk₁.size,
      hshrunk.hsize.trans hshrunk₁.hsize, ?_⟩, hpacked, hkept ▸ hkeeps₁.step hsuffix hgave⟩
    · rw [runCalls_append, hrun₁]
      exact hrun
    · obtain ⟨gone, hgone⟩ := hsuffix.trans hshrunk₁.suffix
      rw [hentries, hkept, ← hgone, List.append_assoc]
      exact List.suffix_append _ _

end

/-- **The documented invariant holds in every state** that calls in any order lead to from a fresh
cache of any size, and no call stops at an impossible place. -/
theorem ring_always (siphash : Bytes → UInt64) (cachesize : Nat) (calls : List Call) :
    ∃ c older newer, runCalls siphash calls (cacheInit cachesize) = .ok c ∧
      Ring siphash c older newer := by
  obtain ⟨c, older, newer, hrun, hshrunk, -⟩ := (cacheInit_ring cachesize).runCalls calls
  exact ⟨c, older, newer, hrun, hshrunk.ring⟩

/-! ## What a lookup gives back -/

/-- A call that leaves an entry for a key. -/
def Call.Stores (space : Nat) (key : Bytes) : Call → Prop
  | .set _ key' data ttl => key' = key ∧ Fits space key' data ttl.toNat
  | .get _ _ => False

/-- The last call that left an entry for a key, with what came later. -/
structure Latest (space : Nat) (key : Bytes) (calls : List Call) (cur : UInt64) (data : Bytes)
    (ttl : UInt32) (later : List Call) : Prop where
  history : ∃ earlier, calls = earlier ++ .set cur key data ttl :: later
  fits : Fits space key data ttl.toNat
  last : ∀ call ∈ later, ¬call.Stores space key

/-- The ways in which the cache, with `kept` in its ring, has lost what was stored last for a key. -/
inductive Lost (siphash : Bytes → UInt64) (hsize space : Nat) (kept : List Entry) (cur : UInt64)
    (key : Bytes) (calls : List Call) : Prop
  /-- Nothing was ever stored for it. -/
  | never (none : ∀ call ∈ calls, ¬call.Stores space key)
  /-- The time is past the label of the entry. -/
  | expired {cur₀ : UInt64} {data : Bytes} {ttl : UInt32} {later : List Call}
      (latest : Latest space key calls cur₀ data ttl later)
      (late : (cur₀.toNat + min ttl.toNat maxTtl) % 18446744073709551616 < cur.toNat)
  /-- The ring has no more entries than have been stored later, and there was no room for the entry beside
  what was asked for later. -/
  | evicted {cur₀ : UInt64} {data : Bytes} {ttl : UInt32} {later : List Call}
      (latest : Latest space key calls cur₀ data ttl later)
      (pushed : kept <:+ entries space later)
      (crowded : Crowded space (key.length + data.length + 20) (askedBy later))
  /-- A hundred and one entries of the bucket have been stored later. -/
  | deep {cur₀ : UInt64} {data : Bytes} {ttl : UInt32} {later : List Call}
      (latest : Latest space key calls cur₀ data ttl later)
      (behind : 100 < (shelf siphash hsize key (entries space later)).length)

section

variable {space : Nat} {key : Bytes}

theorem latest_or_never (space : Nat) (key : Bytes) (calls : List Call) :
    (∀ call ∈ calls, ¬call.Stores space key) ∨
      ∃ cur data ttl later, Latest space key calls cur data ttl later := by
  induction calls with
  | nil => exact .inl nofun
  | cons call calls ih =>
    rcases ih with never | ⟨cur, data, ttl, later, ⟨earlier, rfl⟩, fits, last⟩
    · by_cases stores : call.Stores space key
      · cases call with
        | set cur key' data ttl =>
          obtain ⟨rfl, fits⟩ := stores
          exact .inr ⟨cur, data, ttl, calls, ⟨[], rfl⟩, fits, never⟩
        | get cur key' => exact absurd stores not_false
      · exact .inl (List.forall_mem_cons.mpr ⟨stores, never⟩)
    · exact .inr ⟨cur, data, ttl, later, ⟨call :: earlier, rfl⟩, fits, last⟩

/-- Entries are left for the keys of their calls. -/
theorem entries_others {calls : List Call} (never : ∀ call ∈ calls, ¬call.Stores space key) :
    ∀ e ∈ entries space calls, e.key ≠ key := by
  intro e he hkey
  obtain ⟨call, hcall, hentry⟩ := List.mem_filterMap.mp he
  refine never call hcall ?_
  cases call with
  | set cur key' data ttl =>
    by_cases fits : Fits space key' data ttl.toNat
    · obtain ⟨e', hentry', hkey', _⟩ := @newEntry_eq_some _ cur.toNat _ _ _ fits
      cases Option.some.inj (hentry'.symm.trans hentry)
      exact ⟨hkey'.symm.trans hkey, fits⟩
    · rw [Call.entry, newEntry_eq_none fits] at hentry
      cases hentry
  | get cur key' => cases hentry

/-- The entries of a history, split at the last one for a key. -/
theorem Latest.entries {calls later : List Call} {cur : UInt64} {data : Bytes} {ttl : UInt32}
    (h : Latest space key calls cur data ttl later) :
    ∃ before e, entries space calls = before ++ e :: entries space later ∧
      Call.entry space (.set cur key data ttl) = some e ∧ e.key = key ∧ e.data = data ∧
        e.expire = (cur.toNat + min ttl.toNat maxTtl) % 18446744073709551616 := by
  obtain ⟨⟨earlier, rfl⟩, fits, _⟩ := h
  obtain ⟨e, hentry, hspec⟩ := @newEntry_eq_some _ cur.toNat _ _ _ fits
  refine ⟨Dnscache.entries space earlier, e, ?_, hentry, hspec⟩
  unfold Dnscache.entries
  rw [List.filterMap_append, List.filterMap_cons,
    show Call.entry space (.set cur key data ttl) = some e from hentry]

theorem Latest.before {calls later : List Call} {cur₀ cur : UInt64} {data : Bytes} {ttl : UInt32}
    (h : Latest space key calls cur₀ data ttl later)
    (ordered : (calls.map Call.cur ++ [cur]).Pairwise (· ≤ ·)) : cur₀.toNat ≤ cur.toNat := by
  obtain ⟨earlier, rfl⟩ := h.history
  refine UInt64.le_iff_toNat_le.mp ((List.pairwise_append.mp ordered).2.2 cur₀ ?_ cur
    (List.mem_singleton_self cur))
  rw [List.map_append, List.map_cons]
  exact List.mem_append_right _ List.mem_cons_self

/-- **What a lookup makes** of a ring that keeps the last entries of a history. -/
theorem answerOf_shelf {hsize : Nat} {kept before newer : List Entry} {e : Entry} {cur : Nat}
    (key_eq : e.key = key) (others : ∀ e' ∈ newer, e'.key ≠ key)
    (suffix : kept <:+ before ++ e :: newer) :
    (kept <:+ newer ∨ 100 < (shelf siphash hsize key newer).length) ∧
        answerOf cur key ((shelf siphash hsize key kept).take 101) = none ∨
      answerOf cur key ((shelf siphash hsize key kept).take 101) =
        if e.expire < cur then none else some (e.data, min (e.expire - cur) maxTtl) := by
  have hwhole : kept <:+ newer ∨ ∃ rest, rest ++ e :: newer = kept := by
    rcases List.suffix_or_suffix_of_suffix suffix (List.suffix_append before (e :: newer))
      with short | long
    · exact (List.suffix_cons_iff.mp short).symm.imp_right fun heq => ⟨[], heq.symm⟩
    · exact .inr long
  rcases hwhole with gone | ⟨rest, rfl⟩
  · refine .inl ⟨.inl gone, answerOf_none fun e' he' => others e' ?_⟩
    exact gone.mem (mem_shelf (List.mem_of_mem_take he'))
  · have hshelf : shelf siphash hsize key (rest ++ e :: newer) =
        shelf siphash hsize key newer ++ e :: shelf siphash hsize key rest := by
      unfold shelf
      rw [List.filter_append, List.filter_cons, if_pos (decide_eq_true (by rw [key_eq])),
        List.reverse_append, List.reverse_cons, List.append_assoc]
      rfl
    rw [hshelf]
    by_cases deep : 100 < (shelf siphash hsize key newer).length
    · rw [List.take_append_of_le_length (by omega)]
      exact .inl ⟨.inr deep, answerOf_none fun e' he' =>
        others e' (mem_shelf (List.mem_of_mem_take he'))⟩
    · have hleft : 101 - (shelf siphash hsize key newer).length =
          100 - (shelf siphash hsize key newer).length + 1 := by omega
      rw [List.take_append, List.take_of_length_le (by omega), hleft, List.take_succ_cons,
        answerOf_append fun e' he' => others e' (mem_shelf he'), answerOf_cons, if_pos key_eq]
      exact .inr rfl

/-- **The cache is a lossy map.** Behind any history of calls at times that do not go back, a lookup
gives the data of the last call that stored something for the key, with what is left of its time to
live; or it gives nothing, and then the time is over, or the entry was given up with all that are
older for lack of room, or too many of its bucket are before it. -/
theorem lossy_map (siphash : Bytes → UInt64) (cachesize : Nat) (calls : List Call) (cur : UInt64)
    (key : Bytes) (ordered : (calls.map Call.cur ++ [cur]).Pairwise (· ≤ ·)) :
    ∃ c older newer answer, runCalls siphash calls (cacheInit cachesize) = .ok c ∧
      Ring siphash c older newer ∧ older ++ newer <:+ entries (c.size - c.hsize) calls ∧
      Keeps (c.size - c.hsize) calls (older ++ newer) ∧
      cacheGet siphash cur.toNat key c = .ok answer ∧
      match answer with
      | some (data, left) => ∃ cur₀ ttl later,
          Latest (c.size - c.hsize) key calls cur₀ data ttl later ∧
            left + (cur.toNat - cur₀.toNat) = min ttl.toNat maxTtl
      | none => Lost siphash c.hsize (c.size - c.hsize) (older ++ newer) cur key calls := by
  obtain ⟨c, older, newer, hrun, ⟨hring, hsize, hhsize, hsuffix⟩, -, hkeeps⟩ :=
    (@cacheInit_ring siphash cachesize).runCalls calls
  rw [← hsize, ← hhsize] at hsuffix hkeeps
  refine ⟨c, older, newer, _, hrun, hring, hsuffix, hkeeps, hring.cacheGet cur.toNat key, ?_⟩
  rcases latest_or_never (c.size - c.hsize) key calls with never | ⟨cur₀, data, ttl, later, latest⟩
  · rw [answerOf_none fun e he => entries_others never e
      (hsuffix.mem (mem_shelf (List.mem_of_mem_take he)))]
    exact .never never
  · obtain ⟨before, e, hsplit, hstored, hkey, rfl, hexpire⟩ := latest.entries
    rw [hsplit] at hsuffix
    have hothers := entries_others latest.last
    have hlookup := @answerOf_shelf siphash key c.hsize _ _ _ e cur.toNat hkey hothers hsuffix
    rcases hlookup with ⟨gone | deep, hnone⟩ | hanswer
    · rw [hnone]
      refine .evicted latest gone ?_
      obtain ⟨earlier, hcalls⟩ := latest.history
      rcases hkeeps earlier _ later e hcalls hstored with ⟨rest, hrest⟩ | hcrowded
      · have hlonger := congrArg List.length hrest
        have hshorter := gone.length_le
        rw [List.length_append, List.length_cons] at hlonger
        omega
      · rwa [← hkey]
    · rw [hnone]
      exact .deep latest deep
    · rw [hanswer]
      by_cases late : e.expire < cur.toNat
      · rw [if_pos late]
        exact .expired latest (hexpire ▸ late)
      · rw [if_neg late]
        refine ⟨cur₀, ttl, later, latest, ?_⟩
        have hle := latest.before ordered
        have hlt := cur.toNat_lt
        have hweek : min ttl.toNat maxTtl ≤ 604800 := Nat.min_le_right _ _
        unfold maxTtl at hweek hexpire ⊢
        omega

/-- A key that is stored twice, and its first entry is still in the ring. -/
def storedTwice : List Call :=
  [.set 10 [97] [1] 86400, .get 11 [98], .set 12 [97] [2, 2] 60]

theorem lossy_map_storedTwice :
    ∃ c, runCalls (fun _ => 0) storedTwice (cacheInit 200) = .ok c ∧
      cacheGet (fun _ => 0) 30 [97] c = .ok (some ([2, 2], 42)) ∧
      ∃ cur₀ ttl later, Latest (c.size - c.hsize) [97] storedTwice cur₀ [2, 2] ttl later ∧
        42 + (30 - cur₀.toNat) = min ttl.toNat maxTtl := by
  obtain ⟨c, older, newer, answer, hrun, _, _, _, hget, hanswer⟩ :=
    lossy_map (fun _ => 0) 200 storedTwice 30 [97] (by decide)
  have hboth : (runCalls (fun _ => 0) storedTwice (cacheInit 200)).bind
      (fun c => cacheGet (fun _ => 0) 30 [97] c) = .ok (some ([2, 2], 42)) := by
    decide +kernel
  rw [hrun] at hboth
  cases Except.ok.inj (hget.symm.trans hboth)
  exact ⟨c, hrun, hget, hanswer⟩

end

end TinyDnssec.Dnscache
