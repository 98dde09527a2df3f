import TinyDnssec.Lookup.Sections

/-!
# What is left in place

A referral goes on after `addNSEC3` has failed, and then the response ends in the part of a record
that was written by then: it is no message any more, and nothing that is said of messages applies
to it. What still holds is that everything from before stays where it is. `Grows` is that of the
operations inside a record, `Keeps` of whole records of the additional section, and both hold
whether the operation fails or not.
-/

namespace TinyDnssec.Lookup

open Octets Loop

variable {env : Env}

/-! ## Inside a record -/

/-- Octets are added at the end. -/
structure Grows (r r' : Response) : Prop where
  octets : r.bytes <+: r'.bytes
  limit : r.bytes.length ≤ 65535 → r'.bytes.length ≤ 65535
  dpos : r'.dpos = r.dpos

theorem Grows.refl (r : Response) : Grows r r := ⟨List.prefix_refl _, fun h => h, rfl⟩

theorem Grows.trans {r r' r'' : Response} (h : Grows r r') (h' : Grows r' r'') : Grows r r'' :=
  ⟨h.octets.trans h'.octets, fun limit => h'.limit (h.limit limit), h'.dpos.trans h.dpos⟩

theorem addbytes_grows {r₀ r : Response} (h : Grows r₀ r) (buf : Bytes) :
    Leaves (Grows r₀) id (addbytes buf r) := by
  unfold addbytes
  split
  · exact h
  · rename_i hroom
    refine h.trans ⟨List.prefix_append _ _, fun limit => ?_, rfl⟩
    show (r.bytes ++ buf).length ≤ 65535
    rw [List.length_append]
    omega

theorem enter_grows (d : Name) (r : Response) : Grows r (enter d r) := by
  unfold enter
  split
  · exact ⟨List.prefix_refl _, fun h => h, rfl⟩
  · exact .refl r

theorem addname_grows {r₀ r : Response} (h : Grows r₀ r) (d : Name) :
    Leaves (Grows r₀) id (addname d r) := by
  induction d generalizing r with
  | nil => exact addbytes_grows h _
  | cons l d ih =>
    unfold addname
    split
    · exact addbytes_grows h _
    · exact (addbytes_grows (h.trans (enter_grows _ _)) _).bind fun _ _ hgrown => ih hgrown

theorem put_grows {r₀ r : Response} (h : Grows r₀ r) (field : Field) (f : Found) :
    Leaves (Grows r₀) Prod.snd (field.put f r) := by
  cases field with
  | bytes len =>
    show Leaves (Grows r₀) Prod.snd (dobytes len f r)
    unfold dobytes
    split
    · exact h
    · split
      · exact h
      · exact (addbytes_grows h _).bind fun _ _ hgrown => hgrown
  | name =>
    show Leaves (Grows r₀) Prod.snd (doname f r)
    unfold doname
    split
    · exact h
    · exact (addname_grows h _).bind fun _ _ hgrown => hgrown
  | rest =>
    show Leaves (Grows r₀) Prod.snd (addbytes f.rdata r >>= _)
    exact (addbytes_grows h _).bind fun _ _ hgrown => hgrown

theorem putAll_grows {r₀ r : Response} (h : Grows r₀ r) (shape : List Field) (f : Found) :
    Leaves (Grows r₀) id (putAll shape f r) := by
  induction shape generalizing f r with
  | nil => exact h
  | cons field shape ih =>
    unfold putAll
    exact (put_grows h field f).bind fun _ _ hgrown => ih hgrown _

/-! ## Whole records -/

/-- What was there stays, apart from the count of additional records. -/
structure Keeps (r r' : Response) : Prop where
  length : r.bytes.length ≤ r'.bytes.length
  limit : r.bytes.length ≤ 65535 → r'.bytes.length ≤ 65535
  octets : ∀ i, i < r.bytes.length → i < 10 ∨ 12 ≤ i → r'.bytes[i]? = r.bytes[i]?

theorem Keeps.refl (r : Response) : Keeps r r := ⟨Nat.le_refl _, fun h => h, fun _ _ _ => rfl⟩

theorem Keeps.trans {r r' r'' : Response} (h : Keeps r r') (h' : Keeps r' r'') : Keeps r r'' where
  length := h.length.trans h'.length
  limit := fun limit => h'.limit (h.limit limit)
  octets := fun i hi out =>
    (h'.octets i (Nat.lt_of_lt_of_le hi h.length) out).trans (h.octets i hi out)

theorem Grows.keeps {r r' : Response} (h : Grows r r') : Keeps r r' := by
  refine ⟨h.octets.length_le, h.limit, fun i hi _ => ?_⟩
  obtain ⟨more, hmore⟩ := h.octets
  rw [← hmore]
  exact List.getElem?_append_left hi

/-- `dpos` is not part of what is kept. -/
theorem Keeps.at {r r' : Response} (h : Keeps r r') (dpos : Nat) : Keeps r { r' with dpos := dpos } :=
  ⟨h.length, h.limit, h.octets⟩

theorem rstart_keeps {hide : Bool} {d : Name} {type : Bytes} {ttl : Nat} {r : Response} :
    Leaves (Keeps r) id (rstart hide d type ttl r) := by
  have hkeeps {x : Build} (h : Leaves (Grows r) id x) {f : Response → Build}
      (step : ∀ r', Grows r r' → Leaves (Keeps r) id (f r')) : Leaves (Keeps r) id (x >>= f) := by
    cases x with
    | error e => exact Grows.keeps h
    | ok r' => exact step r' h
  unfold rstart
  refine hkeeps (addname_grows (.refl r) d) fun _ h => ?_
  refine hkeeps (addbytes_grows h _) fun _ h => ?_
  refine hkeeps (addbytes_grows h _) fun _ h => ?_
  refine hkeeps (addbytes_grows h _) fun _ h => ?_
  refine hkeeps (addbytes_grows h _) fun _ h => ?_
  exact h.keeps.at _

/-- Behind `response_rstart`, the data of the record begins at the end of the response. -/
theorem rstart_dpos {hide : Bool} {d : Name} {type : Bytes} {ttl : Nat} {r r' : Response}
    (h : rstart hide d type ttl r = .ok r') :
    r'.dpos = r'.bytes.length ∧ r.bytes.length + 2 ≤ r'.bytes.length := by
  simp only [rstart, bind_eq_ok, addbytes_eq_ok] at h
  obtain ⟨r₁, hname, _, ⟨_, rfl⟩, _, ⟨_, rfl⟩, _, ⟨_, rfl⟩, _, ⟨_, rfl⟩, h⟩ := h
  cases h
  have hlen := ((addname_grows (.refl r) d).ok hname).octets.length_le
  refine ⟨rfl, ?_⟩
  simp only [id, List.length_append, List.length_cons, List.length_nil] at hlen ⊢
  omega

/-- Closing an additional record changes its own fields and the count. -/
theorem rfinish_keeps {r r' : Response} (h : Keeps r r') (header : 12 ≤ r.bytes.length)
    (behind : r.bytes.length + 2 ≤ r'.dpos) (inside : r'.dpos ≤ r'.bytes.length) :
    Keeps r (rfinish .additional r') := by
  have hlen := h.length
  have hfits : r'.dpos - 2 + (be16 (r'.bytes.length - r'.dpos)).length ≤ r'.bytes.length := by
    rw [be16_length]
    omega
  have hpatched := patch_length hfits
  have hcount : Section.additional.offset + 2 ≤
      (patch r'.bytes (r'.dpos - 2) (be16 (r'.bytes.length - r'.dpos))).length := by
    rw [hpatched]
    exact header.trans hlen
  have hlast : (rfinish .additional r').bytes.length = r'.bytes.length :=
    (bump_length hcount).trans hpatched
  refine ⟨hlen.trans hlast.ge, fun limit => hlast.le.trans (h.limit limit), fun i hi out => ?_⟩
  rw [← h.octets i hi out]
  show (bump _ _)[i]? = _
  rw [getElem?_bump hcount out, getElem?_patch hfits (.inl (by omega))]

/-- **A failed copy leaves what was there**, and so does one into the additional section. -/
theorem emit_failed {owner : Name} {shape : List Field} {s : Section} {f : Found} {r e : Response}
    (h : emit owner shape s f r = .error e) : Keeps r e := by
  unfold emit at h
  cases hstart : rstart false owner f.type f.ttl r with
  | error e' =>
    rw [hstart] at h
    cases h
    exact rstart_keeps.error hstart
  | ok r₁ =>
    rw [hstart] at h
    cases hput : putAll shape f r₁ with
    | error e' =>
      have h : (putAll shape f r₁ >>= fun r => Except.ok (rfinish s r)) = .error e := h
      rw [hput] at h
      cases h
      exact (rstart_keeps.ok hstart).trans ((putAll_grows (.refl r₁) shape f).error hput).keeps
    | ok r₂ =>
      have h : (putAll shape f r₁ >>= fun r => Except.ok (rfinish s r)) = .error e := h
      rw [hput] at h
      cases h

theorem emit_keeps {r₀ r : Response} (h : Keeps r₀ r) (header : 12 ≤ r₀.bytes.length) (owner : Name)
    (shape : List Field) (f : Found) : Leaves (Keeps r₀) id (emit owner shape .additional f r) := by
  cases hemit : emit owner shape .additional f r with
  | error e => exact h.trans (emit_failed hemit)
  | ok r' =>
    unfold emit at hemit
    obtain ⟨r₁, hstart, hemit⟩ := bind_eq_ok.mp hemit
    obtain ⟨r₂, hput, hemit⟩ := bind_eq_ok.mp hemit
    cases hemit
    obtain ⟨hdpos, hbehind⟩ := rstart_dpos hstart
    have hgrown := (putAll_grows (.refl r₁) shape f).ok hput
    have hlen := hgrown.octets.length_le
    have hsame : r₂.dpos = r₁.dpos := hgrown.dpos
    refine h.trans (rfinish_keeps ((rstart_keeps.ok hstart).trans hgrown.keeps) ?_ ?_ ?_)
    · exact header.trans h.length
    · rw [hsame, hdpos]
      exact hbehind
    · rw [hsame, hdpos]
      exact hlen

/-! ## The additional section -/

theorem addOpt_keeps {r₀ r : Response} (h : Keeps r₀ r) (header : 12 ≤ r₀.bytes.length) :
    Leaves (Keeps r₀) id (env.addOpt r) := by
  unfold Env.addOpt
  split
  · refine Leaves.bind (g := id) ?_ fun r₁ hstart hkeeps => ?_
    · cases hstart : rstart false [] dnsTOpt 32768 r with
      | error e => exact h.trans (rstart_keeps.error hstart)
      | ok r₁ => exact h.trans (rstart_keeps.ok hstart)
    · obtain ⟨hdpos, hbehind⟩ := rstart_dpos hstart
      have hlen := rstart_root_length rfl hstart
      have hreach := h.length
      have hfits : r.bytes.length + 3 + (be16 512).length ≤ r₁.bytes.length := by
        rw [be16_length]
        omega
      have hpatched := patch_length hfits
      refine rfinish_keeps ?_ header ?_ ?_
      · refine ⟨hkeeps.length.trans hpatched.ge, fun limit => hpatched.le.trans (hkeeps.limit limit),
          fun i hi out => ?_⟩
        rw [← hkeeps.octets i hi out]
        exact getElem?_patch hfits (.inl (by omega))
      · show r₀.bytes.length + 2 ≤ r₁.dpos
        omega
      · show r₁.dpos ≤ (patch r₁.bytes (r.bytes.length + 3) (be16 512)).length
        omega
  · exact h

theorem addServer_keeps {r₀ r : Response} (h : Keeps r₀ r) (header : 12 ≤ r₀.bytes.length)
    (wantAddr : Name) : Leaves (Keeps r₀) id (env.addServer wantAddr r) := by
  unfold Env.addServer
  split
  · apply each_leaves h
    intro f t _ hkeeps
    unfold Env.serverStep
    split
    · exact emit_keeps hkeeps header _ _ _
    · split
      · exact emit_keeps hkeeps header _ _ _
      · split
        · exact emit_keeps hkeeps header _ _ _
        · exact hkeeps
  · exact h

theorem addServers_keeps {r₀ r : Response} (h : Keeps r₀ r) (header : 12 ≤ r₀.bytes.length)
    (arpos rounds bpos : Nat) : Leaves (Keeps r₀) id (env.addServers arpos rounds bpos r) := by
  induction rounds generalizing bpos r with
  | zero => exact h
  | succ rounds ih =>
    unfold Env.addServers
    split
    · split
      · exact h
      · split
        · exact h
        · refine Leaves.bind (g := id) ?_ fun r₁ _ hkeeps => ih hkeeps _
          unfold Env.addServerOf
          split
          · split
            · exact h
            · exact addServer_keeps h header _
          · exact h
    · exact h

/-- **The additional part of a referral leaves everything in front of it in place.** -/
theorem finish_keeps {anpos aupos : Nat} {r r' : Response} (header : 12 ≤ r.bytes.length)
    (h : env.finish false anpos aupos r = .ok r') : Keeps r r' := by
  unfold Env.finish at h
  obtain ⟨r₁, hopt, h⟩ := bind_eq_ok.mp h
  obtain ⟨r₂, hservers, h⟩ := bind_eq_ok.mp h
  cases h
  have hkeeps := (addOpt_keeps (.refl r) header).ok hopt
  exact (addServers_keeps hkeeps header _ _ _).ok hservers

end TinyDnssec.Lookup
