import TinyDnssec.Query.Followed

/-!
# dnscache: the two readings of HAVEPACKET

`havePacket` follows the branch as far as it decides what a packet installs in the servers of the
level below, on a query of names and addresses alone; `havepacket` is the whole branch, on the arrays
of the machine. Here they are one: `answerFlags_eq` and `authorityFlags_eq` compare the two passes
over the packet, `route_eq` the way through the branch, and `havepacket_installs` says that behind
the branch the level below has the servers that `havePacket` leaves it. The labels that the branch
goes on to are not compared.
-/

namespace TinyDnssec.Dnscache

open Octets Loop

/-! ## The passes over a packet -/

def Scan.flags (scan : Scan) : Flags := ⟨scan.out, scan.cname.isSome, scan.soa.isSome, scan.referral⟩

theorem look_of_reads {buf : Bytes} {pos behind stop : Nat} {t1 : Name} {fixed : Bytes}
    (name : dnsPacketGetname buf pos = some (t1, behind))
    (copy : dnsPacketCopy buf behind 10 = some (fixed, stop)) :
    look buf pos = some ⟨t1, behind, fixed⟩ ∧ stop = behind + 10 := by
  obtain ⟨hstop, _⟩ := dnsPacketCopy_eq_some.mp copy
  unfold look
  rw [name]
  simp only []
  rw [copy]
  exact ⟨rfl, hstop⟩

theorem answerFlags_eq (buf : Bytes) (d : Name) (dtype : Bytes) (n pos : Nat) (scan : Scan) :
    answerFlags buf d dtype n pos scan.flags =
      (scanAnswers buf d dtype n pos scan).map fun x => (x.1.flags, x.2) := by
  induction n generalizing pos scan with
  | zero => rfl
  | succ n ih =>
    rw [answerFlags, scanAnswers]
    cases hname : dnsPacketGetname buf pos with
    | none =>
      unfold look
      rw [hname]
      rfl
    | some owner =>
      obtain ⟨t1, behind⟩ := owner
      simp only []
      cases hcopy : dnsPacketCopy buf behind 10 with
      | none =>
        unfold look
        rw [hname]
        simp only []
        rw [hcopy]
        rfl
      | some header =>
        obtain ⟨fixed, stop⟩ := header
        obtain ⟨hlook, rfl⟩ := look_of_reads hname hcopy
        rw [hlook]
        simp only []
        show (if dnsDomainEqual t1 d ∧ (rrHeader fixed).cls = dnsCIn then _ else _) =
          Option.map _ (if dnsDomainEqual t1 d ∧ (rrHeader fixed).cls = dnsCIn then _ else _)
        split
        · show (if typematch (rrHeader fixed).type dtype then _ else _) =
            Option.map _ (if typematch (rrHeader fixed).type dtype then _ else _)
          split
          · exact ih _ { scan with out := true }
          · show (if typematch (rrHeader fixed).type dnsTCname then _ else _) =
              Option.map _ (if typematch (rrHeader fixed).type dnsTCname then _ else _)
            split
            · cases dnsPacketGetname buf (behind + 10) with
              | none => rfl
              | some target =>
                exact ih _ { scan with cname := some (target.1, ttlget (rrHeader fixed).ttl) }
            · exact ih _ scan
        · exact ih _ scan

theorem authorityFlags_eq (buf : Bytes) (n pos : Nat) (scan : Scan) :
    authorityFlags buf n pos scan.flags = (scanAuthority buf n pos scan).map Scan.flags := by
  induction n generalizing pos scan with
  | zero => rfl
  | succ n ih =>
    rw [authorityFlags, scanAuthority]
    cases hname : dnsPacketGetname buf pos with
    | none =>
      unfold look
      rw [hname]
      rfl
    | some owner =>
      obtain ⟨t1, behind⟩ := owner
      simp only []
      cases hcopy : dnsPacketCopy buf behind 10 with
      | none =>
        unfold look
        rw [hname]
        simp only []
        rw [hcopy]
        rfl
      | some header =>
        obtain ⟨fixed, stop⟩ := header
        obtain ⟨hlook, rfl⟩ := look_of_reads hname hcopy
        rw [hlook]
        simp only []
        show (if typematch (rrHeader fixed).type dnsTSoa then _ else _) =
          Option.map _ (if typematch (rrHeader fixed).type dnsTSoa then _ else _)
        split
        · exact ih _ { scan with soa := some _ }
        · show (if typematch (rrHeader fixed).type dnsTNs then _ else _) =
            Option.map _ (if typematch (rrHeader fixed).type dnsTNs then _ else _)
          split
          · exact ih _ { scan with referral := some t1 }
          · exact ih _ scan

/-! ## The way through the branch -/

/-- **The branch goes where the packet, as it is read, sends it.** -/
theorem route_eq (maxloop : Nat) (filed : Bool) (z : Query) (buf : Bytes) :
    route maxloop filed z buf =
      if z.loop + 1 = maxloop then .die
      else
        match readPacket buf (z.name z.level) z.dtype with
        | none => .die
        | some x =>
          if x.lame (z.control z.level) then .havens
          else if ¬ filed then .die
          else if x.scan.cname.isSome then .newname
          else if x.rcode = 3 then if z.level = 0 then .answer else .lowerlevel
          else if ¬ x.scan.out ∧ x.scan.soa.isSome ∧ z.level ≠ 0 ∧ z.dtype = dnsTA then .newname
          else if x.scan.out ∨ x.scan.soa.isSome ∨ x.scan.referral.isNone then
            if z.level = 0 then .answer else .glue x.numanswers x.posanswers
          else .referral := by
  unfold route readPacket
  split
  · rfl
  · cases dnsPacketCopy buf 0 12 with
    | none => rfl
    | some header =>
      obtain ⟨header, pos⟩ := header
      simp only []
      cases dnsPacketSkipname buf pos with
      | none => rfl
      | some question =>
        simp only []
        split
        · rfl
        · have answers := answerFlags_eq buf (z.name z.level) z.dtype
            (unbe ((header.drop 6).take 2)) (question + 4) {}
          rw [show ({} : Flags) = ({} : Scan).flags from rfl, answers]
          cases scanAnswers buf (z.name z.level) z.dtype (unbe ((header.drop 6).take 2))
              (question + 4) {} with
          | none => rfl
          | some scanned =>
            obtain ⟨scan, posauthority⟩ := scanned
            simp only [Option.map_some]
            rw [authorityFlags_eq]
            cases scanAuthority buf (unbe ((header.drop 8).take 2)) posauthority scan with
            | none => rfl
            | some scan' =>
              simp only [Option.map_some, Scan.flags, Reading.lame, Bool.and_eq_true,
                decide_eq_true_eq, Bool.not_eq_true, Option.isSome_eq_false_iff,
                Option.isNone_iff_eq_none, and_assoc]

/-! ## What is installed -/

/-- The query as `havePacket` looks at it. -/
def Z.query (z : Z) : Query where
  loop := z.loop
  level := z.level
  type := z.type
  name i := (z.name.cell i).getD []
  control i := (z.control.cell i).getD []
  ipv6 := z.ipv6.cell
  servers := z.servers.cell

/-- The caching of the records goes through to its end. -/
def filesAll (conf : Conf) (buf : Bytes) (d control : Name) (dtype : Bytes) : Bool :=
  (readPacket buf d dtype).any fun x =>
    (file conf buf control (x.numanswers + x.numauthority + x.numglue) x.posanswers
      x.posauthority).isOk

theorem Z.query_dtype {z : Z} {dtype : Bytes} (h : z.dtype = .ok dtype) : z.query.dtype = dtype := by
  unfold Z.dtype at h
  unfold Query.dtype
  split at h
  · rename_i bottom
    cases h
    exact if_pos bottom
  · rename_i above
    obtain ⟨ipv6, hget, h⟩ := bind_eq_ok.mp h
    cases h
    unfold Arr.get at hget
    split at hget
    · cases hget
      exact if_neg above
    · cases hget

variable {σ : Type} {env : Env σ} {w : World σ}

/-- The servers of one level are as they were. -/
def Leaves (level : Nat) (w : World σ) (y : Step σ) : Prop :=
  y.1.z.servers.cell level = w.z.servers.cell level

/-- Another array of servers, with an entry changed that is not that of the level. -/
theorem Leaves.set {level i : Nat} {block : ServerBlock} {servers : Arr 5 ServerBlock}
    (h : w.z.servers.set i block = .ok servers) (other : level ≠ i) :
    servers.cell level = w.z.servers.cell level := by
  obtain ⟨_, rfl⟩ := Arr.set_eq_ok.mp h
  exact Function.update_of_ne other _ _

theorem puts_servers (store : Store σ) (w : World σ) (calls : List CacheSet) :
    (w.puts store calls).z = w.z := by
  obtain ⟨cache, hputs⟩ := puts_eq store w calls
  rw [hputs]

theorem refer_leaves {buf : Bytes} {d : Name} {x : Reading} {y : Step σ}
    (h : refer env w buf d x = .ok y) (above : w.z.level ≠ 0) : Leaves (w.z.level - 1) w y := by
  have below : w.z.level - 1 ≠ w.z.level := by omega
  unfold refer at h
  split at h
  · cases h
    rfl
  · split at h
    · cases h
      rfl
    · obtain ⟨control, _, h⟩ := bind_eq_ok.mp h
      obtain ⟨servers, hservers, h⟩ := bind_eq_ok.mp h
      have kept := Leaves.set hservers below
      obtain ⟨z, hz, h⟩ := bind_eq_ok.mp h
      obtain ⟨ns, rfl⟩ := freeNs_eq_ok hz
      obtain ⟨z', hz', h⟩ := bind_eq_ok.mp h
      split at h
      · cases h
        exact kept
      · obtain ⟨ns', rfl⟩ := referralLoop_eq_ok hz'
        cases h
        exact kept

theorem havePacket_glue {maxloop : Nat} {filed : Bool} {z : Query} {buf : Bytes} {n pos : Nat}
    (h : route maxloop filed z buf = .glue n pos) :
    havePacket maxloop filed z buf =
      leftWith (glueLoop buf (z.name z.level) n pos ⟨z.servers (z.level - 1), []⟩) := by
  unfold havePacket
  rw [h]

theorem havePacket_other {maxloop : Nat} {filed : Bool} {z : Query} {buf : Bytes} {r : Route}
    (h : route maxloop filed z buf = r) (other : ∀ n pos, r ≠ .glue n pos) :
    (havePacket maxloop filed z buf).block = z.servers (z.level - 1) := by
  unfold havePacket
  rw [h]
  cases r with
  | glue n pos => exact absurd rfl (other n pos)
  | _ => rfl

/-- The end of the branch: the glue loop runs where `route` says, and nothing else is installed. -/
theorem concluded_leaves {buf : Bytes} {d : Name} {dtype : Bytes} {x : Reading} {y : Step σ}
    (above : w.z.level ≠ 0) (addresses : dtype = dnsTA ∨ dtype = dnsTAaaa)
    (h : concluded env w buf d dtype x = .ok y) :
    if x.scan.cname.isSome ∨ x.rcode = 3 ∨
        (¬ x.scan.out ∧ x.scan.soa.isSome ∧ dtype = dnsTA) ∨
        ¬ (x.scan.out ∨ x.scan.soa.isSome ∨ x.scan.referral.isNone) then
      Leaves (w.z.level - 1) w y
    else y.1.z.servers.cell (w.z.level - 1) = (leftWith (glueLoop buf d x.numanswers x.posanswers
      ⟨w.z.servers.cell (w.z.level - 1), []⟩)).block := by
  have plain : dtype ≠ dnsTAny ∧ dtype ≠ dnsTAxfr ∧ dtype ≠ dnsTCname := by
    rcases addresses with rfl | rfl <;> decide
  -- the glue loop, on the level below
  have glued : ∀ {v : World σ}, v.z = w.z → answered env v buf d dtype x = .ok y →
      y.1.z.servers.cell (w.z.level - 1) = (leftWith (glueLoop buf d x.numanswers x.posanswers
        ⟨w.z.servers.cell (w.z.level - 1), []⟩)).block := by
    intro v same h
    unfold answered at h
    rw [same, if_pos above] at h
    obtain ⟨block, hblock, h⟩ := bind_eq_ok.mp h
    obtain ⟨_, rfl⟩ := Arr.get_eq_ok.mp hblock
    simp only [] at h
    obtain ⟨servers, hservers, h⟩ := bind_eq_ok.mp h
    obtain ⟨_, rfl⟩ := Arr.set_eq_ok.mp hservers
    cases h
    exact Function.update_self ..
  unfold concluded at h
  split at h
  · rename_i target ttl cname
    cases h
    rw [if_pos (.inl (by rw [cname]; rfl))]
    rfl
  · rename_i cname
    split at h
    · rename_i absent
      cases h
      rw [if_pos (.inr (.inl absent))]
      exact congrArg (fun z : Z => z.servers.cell (w.z.level - 1)) (puts_servers ..)
    · rename_i present
      have open' : ∀ {P : Prop}, (x.scan.cname.isSome ∨ x.rcode = 3 ∨ P) ↔ P := by
        intro P
        rw [cname]
        exact (or_iff_right Bool.false_ne_true).trans (or_iff_right present)
      rw [if_congr open' rfl rfl]
      split at h
      · rename_i denied
        simp only [] at h
        split at h
        · rename_i upwards
          obtain ⟨ipv6, _, h⟩ := bind_eq_ok.mp h
          cases h
          rw [if_pos (.inl ⟨denied.1, denied.2.1, upwards.2⟩)]
          show (World.puts env.store w _).z.servers.cell _ = _
          rw [puts_servers]
        · rename_i onward
          rw [puts_servers] at onward
          rw [if_neg]
          · exact glued (puts_servers ..) h
          · rintro (⟨_, _, address⟩ | silent)
            · exact onward ⟨above, address⟩
            · exact silent (.inr (.inl denied.2.1))
      · rename_i known
        have heard : ¬ (¬ x.scan.out ∧ x.scan.soa.isSome ∧ dtype = dnsTA) := fun denied =>
          known ⟨denied.1, denied.2.1, plain⟩
        rw [if_congr (or_iff_right heard) rfl rfl]
        split at h
        · rename_i answers
          rw [if_neg (not_not_intro answers)]
          exact glued rfl h
        · rename_i refers
          rw [if_pos refers]
          exact refer_leaves h above

/-- **What HAVEPACKET installs.** Behind the branch, the level below that at work has the servers that
`havePacket` leaves it, when `havePacket` is told whether all the records were filed. -/
theorem havepacket_installs {buf : Bytes} {curserver : Fin 16} {y : Step σ} (above : w.z.level ≠ 0)
    {d control : Name} {dtype : Bytes} (name : w.z.name.cell w.z.level = some d)
    (inControl : w.z.control.cell w.z.level = some control) (asked : w.z.dtype = .ok dtype)
    (h : havepacket env buf curserver w = .ok y) :
    y.1.z.servers.cell (w.z.level - 1) =
      (havePacket env.conf.loops (filesAll env.conf buf d control dtype) w.z.query buf).block := by
  have addresses : dtype = dnsTA ∨ dtype = dnsTAaaa := by
    unfold Z.dtype at asked
    rw [if_neg above] at asked
    obtain ⟨ipv6, _, asked⟩ := bind_eq_ok.mp asked
    cases asked
    cases ipv6
    · exact .inl rfl
    · exact .inr rfl
  have hroute := route_eq env.conf.loops (filesAll env.conf buf d control dtype) w.z.query buf
  rw [show w.z.query.name w.z.query.level = d from congrArg (Option.getD · []) name,
    show w.z.query.control w.z.query.level = control from congrArg (Option.getD · []) inControl,
    Z.query_dtype asked, show w.z.query.loop = w.z.loop from rfl,
    show w.z.query.level = w.z.level from rfl] at hroute
  unfold havepacket at h
  simp only [] at h
  split at h
  · rename_i last
    have last : w.z.loop + 1 = env.conf.loops := last
    rw [if_pos last] at hroute
    cases h
    exact (havePacket_other hroute nofun).symm
  · rename_i more
    have more : ¬ w.z.loop + 1 = env.conf.loops := more
    rw [if_neg more] at hroute
    obtain ⟨_, hget, h⟩ := bind_eq_ok.mp h
    obtain ⟨_, hcontrol, h⟩ := bind_eq_ok.mp h
    obtain ⟨_, hget', h⟩ := bind_eq_ok.mp h
    obtain ⟨_, hd, h⟩ := bind_eq_ok.mp h
    obtain ⟨dtype', hdtype, h⟩ := bind_eq_ok.mp h
    have hdtype : w.z.dtype = .ok dtype' := hdtype
    cases Except.ok.inj (hdtype.symm.trans asked)
    obtain ⟨_, rfl⟩ := Arr.get_eq_ok.mp hget
    obtain ⟨_, rfl⟩ := Arr.get_eq_ok.mp hget'
    cases Option.some.inj ((deref_eq_ok.mp hcontrol).symm.trans inControl)
    cases Option.some.inj ((deref_eq_ok.mp hd).symm.trans name)
    split at h
    · rename_i unread
      rw [unread] at hroute
      cases h
      exact (havePacket_other hroute nofun).symm
    · rename_i x reads
      have hfiles : filesAll env.conf buf d control dtype = (file env.conf buf control
          (x.numanswers + x.numauthority + x.numglue) x.posanswers x.posauthority).isOk := by
        unfold filesAll
        rw [reads]
        rfl
      rw [reads] at hroute
      simp only [] at hroute
      split at h
      · rename_i lame
        rw [if_pos lame] at hroute
        obtain ⟨block, _, h⟩ := bind_eq_ok.mp h
        obtain ⟨servers, hservers, h⟩ := bind_eq_ok.mp h
        cases h
        refine Eq.trans ?_ (havePacket_other hroute nofun).symm
        have hset : w.z.servers.set w.z.level _ = .ok servers := hservers
        exact Leaves.set hset (by omega)
      · rename_i fits
        rw [if_neg fits] at hroute
        split at h
        · rename_i calls hfile
          rw [hfiles, hfile] at hroute ⊢
          rw [if_pos (by rintro ⟨⟩)] at hroute
          cases h
          refine Eq.trans ?_ (havePacket_other hroute nofun).symm
          show (World.puts env.store _ calls).z.servers.cell _ = _
          rw [puts_servers]
          rfl
        · rename_i calls hfile
          rw [hfiles, hfile] at hroute ⊢
          rw [if_pos (by rintro ⟨⟩)] at hroute
          cases h
          refine Eq.trans ?_ (havePacket_other hroute nofun).symm
          show (World.puts env.store _ calls).z.servers.cell _ = _
          rw [puts_servers]
          rfl
        · rename_i calls hfile
          rw [hfiles, hfile] at hroute ⊢
          rw [if_neg (by exact not_not_intro rfl)] at hroute
          have same := puts_servers env.store { w with z := { w.z with loop := w.z.loop + 1 } } calls
          have onward := concluded_leaves (by rw [same]; exact above) addresses h
          unfold Leaves at onward
          rw [same] at onward
          by_cases cname : x.scan.cname.isSome = true
          · rw [if_pos cname] at hroute
            rw [if_pos (.inl cname)] at onward
            exact onward.trans (havePacket_other hroute nofun).symm
          · rw [if_neg cname] at hroute
            by_cases absent : x.rcode = 3
            · rw [if_pos absent, if_neg above] at hroute
              rw [if_pos (.inr (.inl absent))] at onward
              exact onward.trans (havePacket_other hroute nofun).symm
            · rw [if_neg absent] at hroute
              by_cases denied : ¬ x.scan.out = true ∧ x.scan.soa.isSome = true ∧ dtype = dnsTA
              · rw [if_pos ⟨denied.1, denied.2.1, above, denied.2.2⟩] at hroute
                rw [if_pos (.inr (.inr (.inl denied)))] at onward
                exact onward.trans (havePacket_other hroute nofun).symm
              · rw [if_neg fun both => denied ⟨both.1, both.2.1, both.2.2.2⟩] at hroute
                by_cases answers : x.scan.out = true ∨ x.scan.soa.isSome = true ∨
                    x.scan.referral.isNone = true
                · rw [if_pos answers, if_neg above] at hroute
                  rw [if_neg (not_or.mpr ⟨cname, not_or.mpr ⟨absent, not_or.mpr
                    ⟨denied, not_not_intro answers⟩⟩⟩)] at onward
                  rw [onward, havePacket_glue hroute, show w.z.query.name w.z.query.level = d from
                    congrArg (Option.getD · []) name]
                  rfl
                · rw [if_neg answers] at hroute
                  rw [if_pos (.inr (.inr (.inr answers)))] at onward
                  exact onward.trans (havePacket_other hroute nofun).symm

end TinyDnssec.Dnscache
