import TinyDnssec.History
import TinyDnssec.Lookup.Upheld
import TinyDnssec.Printpacket

/-!
# What is sent

Every datagram a server sends, in whatever state earlier ones have left it: it has the id of the query,
and it is either a message with all that the lookup found, no longer than the client can take, or the
question alone, with the TC bit set. `response_tc` cuts the records off and leaves their counts in the
header. So a reply that was cut does not parse to its end, as `printpacket_cat` would have it, unless
there was no record.

Whether a client understands what it gets, and that the network delivers it, is not established.
-/

namespace TinyDnssec

open Octets Loop Lookup

/-! ## Hashed names in a database -/

/-- The type of the records that an RRSIG record signs. -/
def coveredType (data : Bytes) : Bytes :=
  (data.drop (if Data.located (data.getD 2 0) then 17 else 15)).take 2

/-- No name of the database has NS records besides NSEC3 records or signatures over some. -/
def Data.Database.HashesApart (db : Data.Database) : Prop :=
  ∀ ns ∈ db.records, ns.data.take 2 = dnsTNs → ∀ record ∈ db.records, record.key = ns.key →
    record.data.take 2 ≠ dnsTNsec3 ∧
      (record.data.take 2 = dnsTRrsig → coveredType record.data ≠ dnsTNsec3)

theorem apart_of_database {env : Env} (h : env.db.HashesApart) : env.HashesApart := by
  intro c hshows f hf
  obtain ⟨ns, hns, htype⟩ := hshows
  obtain ⟨stored, hstored, hlook⟩ := some_mem_find.mp (mem_visible.mp hns)
  obtain ⟨record, hrecord, hfound⟩ := some_mem_find.mp (mem_visible.mp hf)
  obtain ⟨hmem, hkey⟩ := List.mem_filter.mp hstored
  obtain ⟨hmem', hkey'⟩ := List.mem_filter.mp hrecord
  have hkeys : record.key = stored.key :=
    (of_decide_eq_true hkey').trans (of_decide_eq_true hkey).symm
  obtain ⟨_, hns, _⟩ := look_some hlook
  obtain ⟨hdata, hown, hdpos⟩ := look_some hfound
  obtain ⟨hplain, hsigned⟩ := h stored hmem (hns.symm.trans htype) record hmem' hkeys
  refine ⟨hown ▸ hplain, ?_⟩
  by_contra hsigns
  have hsigns := (Bool.not_eq_false _).mp hsigns
  unfold Found.signs Found.rdata at hsigns
  rw [Bool.and_eq_true, Bool.and_eq_true, decide_eq_true_iff, decide_eq_true_iff,
    decide_eq_true_iff, hdata, hdpos, hown] at hsigns
  exact hsigned hsigns.1.1 hsigns.2

/-! ## The reply to a query -/

theorem readQuery_id {buf : Bytes} {x : Query} (h : readQuery buf = some x) :
    x.header.take 2 = buf.take 2 := by
  unfold readQuery at h
  split at h
  · cases h
  · split at h
    · cases h
    · rename_i hheader
      have hsame : x.header <+: buf ∧ x.header.length = 12 := by
        obtain ⟨_, hlen, hfront⟩ := dnsPacketCopy_eq_some.mp hheader
        split at h
        · cases h
        · split at h
          · cases h
          · split at h
            · cases h
            · split at h
              · cases h
              · cases h
                exact ⟨hfront, hlen⟩
      obtain ⟨more, hmore⟩ := hsame.1
      rw [← hmore, List.take_append_of_le_length (hsame.2.symm ▸ by decide)]

theorem setFlags_id {r : Response} (header : 12 ≤ r.bytes.length) {i : Nat} (flags : 2 ≤ i ∧ i < 4)
    (f : UInt8 → UInt8) : (setFlags i f r).bytes.take 2 = r.bytes.take 2 := by
  ext1 j
  rw [List.getElem?_take, List.getElem?_take]
  split
  · refine getElem?_patch ?_ (.inl (by omega))
    rw [List.length_singleton]
    omega
  · rfl

/-- The response to a question has the id of the query. -/
theorem start_id {x : Query} (valid : Valid x.q) (header : x.header.length = 12)
    (two : x.qtype.length = 2) (clsTwo : x.qclass.length = 2) {r r' : Response}
    (h : x.start r = .ok r') : r'.bytes.take 2 = x.header.take 2 := by
  obtain ⟨r₁, hquery, hasked⟩ := responseQuery_asked valid two clsTwo r
  have hlen : (x.header.take 2).length = 2 := by
    rw [List.length_take, header]
    rfl
  have hid : (responseId (x.header.take 2) r₁).bytes.take 2 = x.header.take 2 := by
    unfold responseId
    rw [patch_zero, List.take_left' hlen]
  have hheader := (hasked.responseId hlen).idle.header
  unfold Query.start at h
  obtain ⟨r₂, hr₂, h⟩ := bind_eq_ok.mp h
  rw [hquery] at hr₂
  cases hr₂
  cases h
  split
  · exact (setFlags_id hheader (by decide) _).trans hid
  · exact hid

theorem setRecursion_id {x : Query} {r : Response} (header : 12 ≤ r.bytes.length) :
    (x.setRecursion r).bytes.take 2 = r.bytes.take 2 := by
  have hra := setFlags_id header (show 2 ≤ 3 ∧ 3 < 4 by decide) (· &&& 127)
  have hlen : (setFlags 3 (· &&& 127) r).bytes.length = r.bytes.length := by
    refine patch_length ?_
    rw [List.length_singleton]
    omega
  unfold Query.setRecursion
  simp only []
  split
  · exact (setFlags_id (hlen.symm ▸ header) (by decide) _).trans hra
  · exact hra

theorem earlyReply_id {x : Query} {r : Response} {question : Name} (asked : Asked r question) :
    (x.earlyReply r).bytes.take 2 = r.bytes.take 2 := by
  have hheader := asked.idle.header
  unfold Query.earlyReply setRcode
  split
  · exact setFlags_id hheader (by decide) _
  · have hrecursion := (@Query.setRecursion_asked x _ _ asked).idle.header
    exact (setFlags_id hrecursion (by decide) _).trans (setRecursion_id hheader)

/-- What a lookup ends with when there is a reply. -/
theorem looked_ends {w : World} {s : Server} (apart : ∀ db ∈ s.database w, db.HashesApart) {q : Name}
    (valid : Valid q) {question : Name} {qtype : Bytes} {r : Response} (idle : Idle r question {})
    (reply : (s.looked w q qtype r (s.database w)).2 = true) :
    Ends r (s.looked w q qtype r (s.database w)).1 question := by
  cases hdb : s.database w with
  | none =>
    rw [hdb] at reply
    cases reply
  | some db =>
    have hapart : (s.settings w db).HashesApart := apart_of_database (apart db hdb)
    rw [hdb] at reply
    unfold Server.looked at reply ⊢
    dsimp only at reply ⊢
    cases hrespond : (s.settings w db).respond q qtype r with
    | ok r' => exact respond_ends hapart valid idle hrespond
    | error r' =>
      rw [hrespond] at reply
      cases reply

/-- **Where there is a reply**, it ends a lookup for the question, or the question is all there is. -/
theorem doit_replies {w : World} {s : Server} (apart : ∀ db ∈ s.database w, db.HashesApart)
    {buf : Bytes} {x : Query}
    (read : readQuery buf = some x) (reply : (s.doit w buf).2 = true) :
    ∃ r₀, Asked r₀ x.q ∧ r₀.bytes.take 2 = buf.take 2 ∧ Ends r₀ (s.doit w buf).1.response x.q ∧
      (x.early = true → (s.doit w buf).1.response = r₀) := by
  obtain ⟨hvalid, hheader, htwo, hclsTwo⟩ := readQuery_spec read
  obtain ⟨r, hstart, hasked⟩ := Query.start_asked hvalid hheader htwo hclsTwo s.response
  have hid := (start_id hvalid hheader htwo hclsTwo hstart).trans (readQuery_id read)
  rw [doit_of_read read hstart] at reply ⊢
  cases hearly : x.early with
  | true =>
    rw [if_pos rfl]
    have hreply := @Query.earlyReply_asked x _ _ hasked
    exact ⟨_, hreply, (earlyReply_id hasked).trans hid, ends_of_idle hreply.idle (.refl _), fun _ => rfl⟩
  | false =>
    rw [hearly, if_neg Bool.false_ne_true] at reply
    rw [if_neg Bool.false_ne_true]
    have hready := @Query.setRecursion_asked x _ _ hasked
    refine ⟨_, hready, (setRecursion_id hasked.idle.header).trans hid, ?_,
      fun h => absurd h Bool.false_ne_true⟩
    unfold Server.lookup at reply ⊢
    simp only [] at reply ⊢
    split at reply
    · cases reply
    · rename_i hok
      rw [if_neg hok]
      have hdb : ∀ db ∈ Server.database w { s with
          maxResponseLen := (checkEdns0 x.header buf x.pos).2.maxResponseLen
          doDnssec := (checkEdns0 x.header buf x.pos).2.doDnssec }, db.HashesApart := apart
      obtain ⟨-, hresponse, hsent⟩ := respond_eq w { s with
        maxResponseLen := (checkEdns0 x.header buf x.pos).2.maxResponseLen
        doDnssec := (checkEdns0 x.header buf x.pos).2.doDnssec } (lowerName x.q) x.qtype (x.setRecursion r)
      rw [hsent] at reply
      rw [hresponse]
      exact looked_ends hdb hvalid.lower hready.idle reply

/-! ## Sending it -/

/-- The reply has everything that was found, and no TC bit. -/
structure Whole (limit : Nat) (question : Name) (reply : Bytes) : Prop where
  message : ∃ log, Says reply question log
  fits : reply.length ≤ limit
  tc : reply.getD 2 0 &&& 2 = 0
  parses : packetParses reply = true

/-- The reply has the TC bit and ends behind the question; `bare` tells whether that is all its header
counts. -/
structure Truncated (bare : Bool) (question : Name) (reply : Bytes) : Prop where
  tc : reply.getD 2 0 &&& 2 ≠ 0
  question : ∃ p, NameAt (memory reply) 12 question p ∧ reply.length = p + 4
  parses : packetParses reply = bare

/-- One question is counted still. -/
theorem ends_one {r₀ r : Response} {question : Name} (h : Ends r₀ r question)
    (asked : Asked r₀ question) : Holds (memory r.bytes) 4 [0, 1] := by
  have hheader := asked.idle.header
  refine holds_of_agree asked.question fun i lo hi => h.octets i ?_ (.inr (.inl ⟨lo, ?_⟩))
  · exact Nat.lt_of_lt_of_le hi (Nat.le_trans (by decide) hheader)
  · exact hi

theorem ends_whole {r₀ r : Response} {question : Name} (h : Ends r₀ r question)
    (asked : Asked r₀ question) {limit : Nat} (fits : r.bytes.length ≤ limit) :
    Whole limit question r.bytes := by
  obtain ⟨log, hmessage⟩ := h.message
  exact ⟨⟨log, hmessage⟩, fits, h.tc.trans asked.whole, hmessage.parses (ends_one h asked) h.limit⟩

/-- What `response_tc` leaves: the question with the TC bit, and the counts. -/
theorem responseTc_spec {r₀ r : Response} {question : Name} (h : Ends r₀ r question)
    (asked : Asked r₀ question) :
    (responseTc r).bytes.length = r₀.bytes.length ∧
      (responseTc r).bytes.getD 2 0 &&& 2 ≠ 0 ∧
      ∀ i, i < r₀.bytes.length → i ≠ 2 → (responseTc r).bytes[i]? = r.bytes[i]? := by
  have hheader := asked.idle.header
  have hlength := h.length
  have htarget : r.tctarget = r₀.bytes.length := h.target.trans asked.target
  have hfits : 2 + [r.bytes.getD 2 0 ||| 2].length ≤ r.bytes.length := by
    rw [List.length_singleton]
    omega
  have hat : (patch r.bytes 2 [r.bytes.getD 2 0 ||| 2])[2]? = some (r.bytes.getD 2 0 ||| 2) :=
    holds_patch hfits 0 _ rfl
  unfold responseTc
  simp only [htarget]
  refine ⟨?_, ?_, fun i hi other => ?_⟩
  · rw [List.length_take, patch_length hfits]
    omega
  · rw [List.getD_eq_getElem?_getD, List.getElem?_take_of_lt (by omega), hat]
    exact or_two_ne_zero _
  · rw [List.getElem?_take_of_lt hi]
    refine getElem?_patch hfits ?_
    rw [List.length_singleton]
    omega

theorem ends_cut {r₀ r : Response} {question : Name} (h : Ends r₀ r question)
    (asked : Asked r₀ question) {bare : Bool} (same : bare = true → r = r₀)
    (long : bare = false → 271 < r.bytes.length) : Truncated bare question (responseTc r).bytes := by
  obtain ⟨hlen, htc, hagree⟩ := responseTc_spec h asked
  have hheader := asked.idle.header
  have hshort := asked.short
  obtain ⟨p, hname, hstop⟩ := asked.idle.body
  have hp : r₀.bytes.length = p + 4 := hstop
  have hname' : NameAt (memory r.bytes) 12 question p := by
    refine hname.mono ((stable_mono (fun _ _ hi => hi) fun i hi hout => ?_).trans
      (stable_within headerHole r.bytes))
    exact h.octets i hi (.inr (.inr (Nat.not_lt.mp (of_decide_eq_false hout))))
  have hquestion : NameAt (memory (responseTc r).bytes) 12 question p := by
    refine hname.mono ((stable_mono (fun _ _ hi => hi) fun i hi hout => ?_).trans
      (stable_within headerHole _))
    have hbehind : 12 ≤ i := Nat.not_lt.mp (of_decide_eq_false hout)
    rw [hagree i hi (by omega)]
    exact h.octets i hi (.inr (.inr hbehind))
  have hone : Holds (memory (responseTc r).bytes) 4 [0, 1] :=
    holds_of_agree (ends_one h asked) fun i lo hi =>
      hagree i (Nat.lt_of_lt_of_le hi (Nat.le_trans (by decide) hheader)) (by omega)
  obtain ⟨log, hmessage⟩ := h.message
  have hcounts : Counts (memory (responseTc r).bytes) log :=
    holds_of_agree hmessage.counts fun i lo hi => hagree i (by
      simp only [List.length_append, be16_length] at hi
      omega) (by omega)
  obtain ⟨p', hname'', hentries⟩ := hmessage.body
  have hsame : p' = p := by
    obtain ⟨n, hread, _⟩ := hname'.getname
    obtain ⟨n', hread', _⟩ := hname''.getname
    rw [hread] at hread'
    cases hread'
    rfl
  subst hsame
  have hfew := hentries.length_le
  have hlimit := h.limit
  refine ⟨htc, ⟨p', hquestion, hlen.trans hp⟩, ?_⟩
  cases bare with
  | false =>
    refine not_parses hcounts hone hquestion (hlen.trans hp) (by omega) fun hnone => ?_
    rw [hnone] at hentries
    have hend : r.bytes.length = p' + 4 := hentries
    have := long rfl
    omega
  | true =>
    have hlast : r.bytes.length = p' + 4 := by rw [same rfl, hp]
    have hnone : log.all = [] := List.length_eq_zero_iff.mp (by omega)
    have hbody : Body (memory (responseTc r).bytes) question log (responseTc r).bytes.length := by
      refine ⟨p', hquestion, ?_⟩
      rw [hnone]
      exact hlen.trans hp
    exact Says.parses ⟨hcounts, hbody⟩ hone (by omega)

/-! ## Every datagram -/

/-- The id is in front of everything that changes when a response is sent. -/
theorem ends_id {r₀ r : Response} {question : Name} (h : Ends r₀ r question)
    (asked : Asked r₀ question) (limit : Nat) : (send limit r).take 2 = r₀.bytes.take 2 := by
  have hheader := asked.idle.header
  obtain ⟨_, _, hagree⟩ := responseTc_spec h asked
  ext1 i
  rw [List.getElem?_take, List.getElem?_take]
  split
  · rename_i hi
    have hsame := h.octets i (by omega) (.inl hi)
    unfold send
    split
    · rw [hagree i (by omega) (by omega), hsame]
    · exact hsame
  · rfl

/-- The OPT record of a query, if it can be used: the size and the DO bit in it. -/
def Query.opt (x : Query) (buf : Bytes) : Option (Nat × Bool) :=
  match (x.header.drop 6).take 6, buf.drop x.pos with
  | [0, 0, 0, 0, 0, 1], 0 :: 0 :: 41 :: hi :: lo :: 0 :: 0 :: flags :: _ :: _ =>
    some (hi.toNat * 256 + lo.toNat, flags &&& 128 ≠ 0)
  | _, _ => none

/-- How long the client lets a reply to the query be. -/
def Query.limit (x : Query) (buf : Bytes) : Nat :=
  match x.opt buf with
  | none => 512
  | some (size, dnssecOk) => max (if dnssecOk then 1220 else 512) (min 4000 size)

theorem limit_ge (x : Query) (buf : Bytes) : 512 ≤ x.limit buf := by
  unfold Query.limit
  split
  · exact Nat.le_refl 512
  · split <;> omega

theorem dnsPacketCopy_append {buf front back : Bytes} {pos : Nat} (here : buf.drop pos = front ++ back) :
    dnsPacketCopy buf pos front.length = some (front, pos + front.length) ∧
      buf.drop (pos + front.length) = back := by
  refine ⟨dnsPacketCopy_eq_some.mpr ⟨rfl, rfl, back, here.symm⟩, ?_⟩
  rw [← List.drop_drop, here, List.drop_left]

/-- **The size limit is the request's**, where the query is looked up. -/
theorem checkEdns0_limit_eq (x : Query) (buf : Bytes) :
    (checkEdns0 x.header buf x.pos).2.maxResponseLen = x.limit buf := by
  unfold Query.limit
  cases hopt : x.opt buf with
  | some opt =>
    unfold Query.opt at hopt
    split at hopt
    · rename_i hi lo flags z rest hheader hdrop
      obtain ⟨hname, hdrop⟩ := @dnsPacketCopy_append buf [0, 0, 41] _ x.pos hdrop
      obtain ⟨hclass, hdrop⟩ := @dnsPacketCopy_append buf [hi, lo] _ _ hdrop
      obtain ⟨httl, _⟩ := @dnsPacketCopy_append buf [0, 0, flags, z] rest _ hdrop
      have hname : dnsPacketCopy buf x.pos 3 = some (0 :: dnsTOpt, x.pos + 3) := hname
      have hclass : dnsPacketCopy buf (x.pos + 3) 2 = some ([hi, lo], x.pos + 3 + 2) := hclass
      have httl : dnsPacketCopy buf (x.pos + 3 + 2) 4 = some ([0, 0, flags, z], _) := httl
      have size : unbe [hi, lo] = hi.toNat * 256 + lo.toNat := unbe_pair hi lo
      cases hopt
      unfold checkEdns0
      simp only [hheader, hname, hclass, httl, size, ne_eq, not_true_eq_false, if_false]
      rfl
    · cases hopt
  | none =>
    unfold checkEdns0
    simp only []
    split
    · rfl
    · rename_i hheader
      split
      · rfl
      · rename_i name _ hname
        split
        · rfl
        · rename_i htype
          split
          · rfl
          · rename_i cls _ hclass
            split
            · rfl
            · rename_i ttl _ httl
              split
              · rfl
              · -- then there is an OPT record that can be used
                rename_i version
                obtain ⟨rfl, _, rest, hname⟩ := dnsPacketCopy_eq_some.mp hname
                obtain ⟨rfl, two, rest', hclass⟩ := dnsPacketCopy_eq_some.mp hclass
                obtain ⟨-, four, rest'', httl⟩ := dnsPacketCopy_eq_some.mp httl
                rw [not_or, not_not, not_not] at version
                match cls, two, ttl, four, version with
                | [hi, lo], _, [v, w, flags, z], _, ⟨hv, hw⟩ =>
                  have hv : v = 0 := hv
                  have hw : w = 0 := hw
                  have behind : rest = [hi, lo] ++ rest' := by
                    rw [hclass, ← List.drop_drop, ← hname, not_not.mp htype]
                    rfl
                  have last : rest' = [0, 0, flags, z] ++ rest'' := by
                    rw [hv, hw] at httl
                    rw [httl, ← List.drop_drop, ← hclass]
                    rfl
                  have whole : buf.drop x.pos = 0 :: 0 :: 41 :: hi :: lo :: 0 :: 0 :: flags :: z :: rest'' := by
                    rw [← hname, behind, last, not_not.mp htype]
                    rfl
                  unfold Query.opt at hopt
                  rw [not_not.mp hheader, whole] at hopt
                  cases hopt

/-- **Every datagram that is sent** has the id of the query. With hashed names apart from delegations
it is a message as long as the client lets it be, or the question alone with the TC bit; and the latter
parses to its end exactly when the query was answered before anything was looked up. -/
theorem serve_sends {w : World} {s : Server} (apart : ∀ db ∈ s.database w, db.HashesApart)
    {buf reply : Bytes} (sent : (s.serve w buf).2 = some reply) :
    ∃ x, readQuery buf = some x ∧ reply.take 2 = buf.take 2 ∧
      (Whole (x.limit buf) x.q reply ∨ Truncated x.early x.q reply) := by
  rw [serve_snd] at sent
  split at sent
  · rename_i hreply
    obtain rfl := Option.some_inj.mp sent
    cases hread : readQuery buf with
    | none =>
      rw [doit_of_unread hread] at hreply
      cases hreply
    | some x =>
      obtain ⟨r₀, hasked, hid, hends, hearly⟩ := doit_replies apart hread hreply
      have hlimit : x.early = false → (s.doit w buf).1.maxResponseLen = x.limit buf := by
        intro hlate
        obtain ⟨hvalid, hheader, htwo, hclsTwo⟩ := readQuery_spec hread
        obtain ⟨r, hstart, _⟩ := Query.start_asked hvalid hheader htwo hclsTwo s.response
        rw [doit_of_read hread hstart, hlate, if_neg Bool.false_ne_true, lookup_limit,
          checkEdns0_limit_eq]
      refine ⟨x, rfl, (ends_id hends hasked _).trans hid, ?_⟩
      have hleast := limit_ge x buf
      unfold send
      split
      · rename_i hlong
        refine .inr (ends_cut hends hasked hearly fun hlate => ?_)
        have := hlimit hlate
        omega
      · rename_i hfits
        refine .inl (ends_whole hends hasked ?_)
        cases hcase : x.early with
        | true =>
          have := hasked.short
          rw [hearly hcase]
          omega
        | false =>
          have := hlimit hcase
          omega
  · cases sent

/-- The query for the address of `x.z` with an OPT record: 600 octets, and the DO bit. -/
def optDatagram : Bytes :=
  [0, 7, 0, 0, 0, 1, 0, 0, 0, 0, 0, 1, 1, 120, 1, 122, 0, 0, 1, 0, 1, 0, 0, 41, 2, 88, 0, 0, 128, 0, 0, 0]

theorem serve_sends_wildcard :
    ∃ reply x, (idleServer.serve wildcardWorld optDatagram).2 = some reply ∧
      readQuery optDatagram = some x ∧ reply.take 2 = [0, 7] ∧ Whole 1220 x.q reply := by
  obtain ⟨reply, hreply⟩ : ∃ reply, (idleServer.serve wildcardWorld optDatagram).2 = some reply :=
    Option.isSome_iff_exists.mp (by decide +kernel)
  have apart : ∀ db ∈ idleServer.database wildcardWorld, db.HashesApart := by
    unfold Data.Database.HashesApart
    decide +kernel
  obtain ⟨x, hread, hid, hends⟩ := serve_sends apart hreply
  have hlimit : ∀ x ∈ readQuery optDatagram, x.limit optDatagram = 1220 := by decide +kernel
  have hwhole : ∀ reply ∈ (idleServer.serve wildcardWorld optDatagram).2, reply.getD 2 0 &&& 2 = 0 := by
    decide +kernel
  rw [hlimit x hread] at hends
  exact ⟨reply, x, hreply, hread, hid, hends.resolve_right fun cut => cut.tc (hwhole reply hreply)⟩

end TinyDnssec
