import TinyDnssec.Base.Lines
import TinyDnssec.Data.Compile
import TinyDnssec.Ip6

/-!
# Qualification

`dns_ipq.c` and `dns_ipq6.c`. A name is rewritten by rules, and where a plus sign is left in it, the
names it stands for are looked up one after the other. All of this happens in one block of memory:
each name is moved over the one before it, in front of those that are still to come, and `dns_ip6`
puts a zero behind it.

What the lookups answer is given, and so is the text of the rules.
-/

namespace TinyDnssec.Qualify

open Octets Data

/-! ## `stralloc` -/

/-- A block of memory, of which the first `len` octets are in use. -/
structure Stralloc where
  block : Bytes
  len : Nat
  fits : len ≤ block.length

/-- What the lookups of an address lead to: -1, or what is then in `out`. -/
inductive Answer where
  | failed
  | addresses (ips : Bytes)
deriving DecidableEq

namespace Stralloc

def text (x : Stralloc) : Bytes := x.block.take x.len

/-- `x->len = n` -/
def cut (x : Stralloc) (n : Nat) (shorter : n ≤ x.len) : Stralloc :=
  ⟨x.block, n, Nat.le_trans shorter x.fits⟩

variable (fresh : Nat → UInt8)

/-- `stralloc_readyplus`: a block that is too small is replaced by a larger one, which holds anything
behind what it was given. -/
def readyplus (x : Stralloc) (n : Nat) : Stralloc :=
  if x.len + n ≤ x.block.length then x
  else ⟨x.block ++ (List.range n).map fresh, x.len, by
    rw [List.length_append]
    exact Nat.le_add_right_of_le x.fits⟩

theorem readyplus_room (x : Stralloc) (n : Nat) :
    (x.readyplus fresh n).len + n ≤ (x.readyplus fresh n).block.length := by
  unfold readyplus
  split
  · assumption
  · simp only [List.length_append, List.length_map, List.length_range]
    exact Nat.add_le_add_right x.fits n

/-- `stralloc_catb` -/
def catb (x : Stralloc) (s : Bytes) : Stralloc :=
  let y := x.readyplus fresh s.length
  ⟨patch y.block y.len s, y.len + s.length, by
    rw [patch_length (readyplus_room fresh x _)]
    exact readyplus_room fresh x _⟩

/-- `stralloc_copy` -/
def copy (x : Stralloc) (s : Bytes) : Stralloc := (x.cut 0 (Nat.zero_le _)).catb fresh s

/-- `stralloc_readyplus(x,1); x->s[x->len] = 0;` -/
def terminate (x : Stralloc) : Stralloc :=
  let y := x.readyplus fresh 1
  ⟨y.block.set y.len 0, y.len, by
    rw [List.length_set]
    exact y.fits⟩

/-- `byte_copy(x->s + plus,j,x->s + i); x->len = plus + j;` Nothing, if that touches an octet outside
of the block. -/
def moveDown (x : Stralloc) (plus i j : Nat) : Option Stralloc :=
  let block := copyDown j plus i x.block
  if fits : i + j ≤ x.block.length ∧ plus + j ≤ block.length then some ⟨block, plus + j, fits.2⟩
  else none

end Stralloc

/-- A name for the instance, so that the definitions below hold no proof of it. -/
local instance octetLawful : LawfulBEq UInt8 := inferInstance

/-! ## `dns_ipq.c` and `dns_ipq6.c` -/

section

variable (fresh : Nat → UInt8)

/-- What a rule leaves of the name is a front of it. -/
theorem cut_fits (work : Stralloc) (ch : UInt8) (rule : Bytes) :
    (if ch = 45 then 0 else work.len - byteChr 58 rule) ≤ work.len := by
  split
  · exact Nat.zero_le _
  · exact Nat.sub_le _ _

/-- `doit`: follow a rule, if it can be followed. `excluded` are the octets that a `?` rule looks for. -/
def doit (excluded : Bytes) (work : Stralloc) (rule : Bytes) : Stralloc :=
  match rule with
  | [] => work
  | ch :: rule =>
    if ch ≠ 63 ∧ ch ≠ 61 ∧ ch ≠ 42 ∧ ch ≠ 45 then work
    else if 58 ∉ rule then work
    else
      let colon := byteChr 58 rule
      let prefixlen := work.len - colon
      if work.len < colon then work
      else if ch = 61 ∧ prefixlen ≠ 0 then work
      else if lower (rule.take colon) ≠ lower ((work.block.drop prefixlen).take colon) then work
      else if ch = 63 ∧ ∃ b ∈ excluded, b ∈ work.block.take prefixlen then work
      else
        (work.cut (if ch = 45 then 0 else prefixlen) (cut_fits work ch rule)).catb fresh
          (rule.drop (colon + 1))

/-- The strings in `rules`, each with a zero behind it. -/
def ruleStrings (rules : Bytes) : List Bytes := (split 0 rules).dropLast

/-- The first loop of `dns_ip4_qualify_rules`. -/
def rewrite (excluded : Bytes) (work : Stralloc) (rules : Bytes) : Stralloc :=
  (ruleStrings rules).foldl (doit fresh excluded) work

variable (lookup : Nat → Stralloc → Option (Stralloc × Answer))

/-- The second loop: `round` counts the names that were looked up. -/
def search (plus fqdnlen round i : Nat) (fqdn : Stralloc) : Option (Stralloc × Answer) :=
  let j := byteChr 43 ((fqdn.block.drop i).take (fqdnlen - i))
  (fqdn.moveDown plus i j).bind fun fqdn =>
    match lookup round fqdn with
    | none => none
    | some (fqdn, .addresses []) =>
      if fqdnlen ≤ i + j then some (fqdn, .addresses [])
      else search plus fqdnlen (round + 1) (i + j + 1) fqdn
    | some (fqdn, out) => some (fqdn, out)
termination_by fqdnlen - i

/-- `dns_ip4_qualify_rules` and `dns_ip6_qualify_rules`, by their lookups. -/
def qualifyRules (excluded : Bytes) (fqdn : Stralloc) (input rules : Bytes) :
    Option (Stralloc × Answer) :=
  let fqdn := rewrite fresh excluded (fqdn.copy fresh input) rules
  let plus := byteChr 43 fqdn.text
  if fqdn.len ≤ plus then lookup 0 fqdn else search lookup plus fqdn.len 0 (plus + 1) fqdn

end

/-! ## `dns_ip.c` and `dns_ip6.c` -/

/-- The octets of an address that is written out: digits, dots and brackets. -/
def literalGo : Bytes → UInt8 → Bytes → Option Bytes
  | [], code, out => some (out ++ [code])
  | ch :: s, code, out =>
    if ch = 91 ∨ ch = 93 then literalGo s code out
    else if ch = 46 then literalGo s 0 (out ++ [code])
    else if isDigit ch then literalGo s (code * 10 + (ch - 48)) out
    else none

/-- All of them in fours. -/
def literal (s : Bytes) : Option Bytes :=
  (literalGo s 0 []).map fun out => out.take (out.length / 4 * 4)

section

variable (fresh : Nat → UInt8) (x : Ip6.Xlong)

/-- `dns_ip4`. Any lookup in the network may fail or find addresses, whatever others of the same name
did. -/
def dnsIp4 (network : Nat → Name → Answer) (round : Nat) (fqdn : Stralloc) :
    Option (Stralloc × Answer) :=
  some (fqdn, match literal fqdn.text with
    | some out => .addresses out
    | none =>
      match dnsDomainFromdot fqdn.text with
      | none => .failed
      | some q => network round q)

/-- `dns_ip6`. What is found for the name is all that its two lookups have put into `out`, and `out->a`
is never zero at the end. -/
def dnsIp6 (network : Nat → Name → Bytes) (round : Nat) (fqdn : Stralloc) :
    Option (Stralloc × Answer) :=
  let fqdn := fqdn.terminate fresh
  match Ip6.ip6Scan x (cString fqdn.block) with
  | some (i, ip) =>
    match fqdn.block[i]? with
    | none => none
    | some ch => some (fqdn, if ch ≠ 0 then .failed else .addresses ip)
  | none =>
    some (fqdn, match literal fqdn.text with
      | some out => .addresses out
      | none =>
        match dnsDomainFromdot fqdn.text with
        | none => .failed
        | some q => .addresses (network round q))

def dnsIp4QualifyRules (network : Nat → Name → Answer) (fqdn : Stralloc) (input rules : Bytes) :
    Option (Stralloc × Answer) :=
  qualifyRules fresh (dnsIp4 network) [46, 91, 93] fqdn input rules

def dnsIp6QualifyRules (network : Nat → Name → Bytes) (fqdn : Stralloc) (input rules : Bytes) :
    Option (Stralloc × Answer) :=
  qualifyRules fresh (dnsIp6 fresh x network) [46, 58, 91, 93] fqdn input rules

end

/-! ## What is documented -/

/-- What a rule makes of a name that it is about: `=post:new`, `*post:new`, `?post:new` and
`-post:new`. -/
inductive Rewrites (excluded : Bytes) : Bytes → Bytes → Bytes → Prop where
  | exact {post new name : Bytes} : 58 ∉ post → lower name = lower post →
      Rewrites excluded (61 :: (post ++ 58 :: new)) name new
  | any {post new pre tail : Bytes} : 58 ∉ post → lower tail = lower post →
      Rewrites excluded (42 :: (post ++ 58 :: new)) (pre ++ tail) (pre ++ new)
  | plain {post new pre tail : Bytes} : 58 ∉ post → lower tail = lower post →
      (∀ b ∈ excluded, b ∉ pre) →
      Rewrites excluded (63 :: (post ++ 58 :: new)) (pre ++ tail) (pre ++ new)
  | whole {post new pre tail : Bytes} : 58 ∉ post → lower tail = lower post →
      Rewrites excluded (45 :: (post ++ 58 :: new)) (pre ++ tail) new

/-- A rule is followed at most once, where it is about the name. -/
def Follows (excluded rule name name' : Bytes) : Prop :=
  Rewrites excluded rule name name' ∨ (∀ new, ¬ Rewrites excluded rule name new) ∧ name' = name

/-- Rules are followed in order. -/
inductive FollowsAll (excluded : Bytes) : List Bytes → Bytes → Bytes → Prop where
  | nil {name : Bytes} : FollowsAll excluded [] name name
  | cons {rule name name' name'' : Bytes} {rules : List Bytes} : Follows excluded rule name name' →
      FollowsAll excluded rules name' name'' → FollowsAll excluded (rule :: rules) name name''

/-- The names that `x+y1+y2` stands for; without a plus sign, the name itself. -/
def alternatives (name : Bytes) : List Bytes :=
  match split 43 name with
  | x :: y :: ys => (y :: ys).map (x ++ ·)
  | _ => [name]

/-- The name that is chosen, and what is said of it: the first one that has addresses or whose lookup
fails, or the last one. -/
def Chosen (answer : Nat → Bytes → Answer) (names : List Bytes) (name : Bytes) (out : Answer) : Prop :=
  ∃ front back, names = front ++ name :: back ∧
    (∀ (k : Nat) (other : Bytes), front[k]? = some other → answer k other = .addresses []) ∧
    answer front.length name = out ∧ (out = .addresses [] → back = [])

/-- What is found for a name by `dns_ip4`. -/
def answer4 (network : Nat → Name → Answer) (round : Nat) (name : Bytes) : Answer :=
  match literal name with
  | some out => .addresses out
  | none =>
    match dnsDomainFromdot name with
    | none => .failed
    | some q => network round q

/-- What is found for a name by `dns_ip6`: an address that is written out has to be all of the name,
up to a zero in it. -/
def answer6 (x : Ip6.Xlong) (network : Nat → Name → Bytes) (round : Nat) (name : Bytes) : Answer :=
  match Ip6.ip6Scan x (cString name) with
  | some (i, ip) => if i < (cString name).length then .failed else .addresses ip
  | none =>
    match literal name with
    | some out => .addresses out
    | none =>
      match dnsDomainFromdot name with
      | none => .failed
      | some q => .addresses (network round q)

/-! ## Rules -/

section

variable {fresh : Nat → UInt8} {excluded : Bytes}

theorem readyplus_text (x : Stralloc) (n : Nat) : (x.readyplus fresh n).text = x.text := by
  unfold Stralloc.readyplus Stralloc.text
  split
  · rfl
  · exact List.take_append_of_le_length x.fits

theorem readyplus_len (x : Stralloc) (n : Nat) : (x.readyplus fresh n).len = x.len := by
  unfold Stralloc.readyplus
  split <;> rfl

theorem text_length (x : Stralloc) : x.text.length = x.len := by
  unfold Stralloc.text
  rw [List.length_take, Nat.min_eq_left x.fits]

theorem catb_text (x : Stralloc) (s : Bytes) : (x.catb fresh s).text = x.text ++ s := by
  have text := @readyplus_text fresh x s.length
  rw [← text]
  have length := text_length (x.readyplus fresh s.length)
  show (patch _ _ s).take _ = _
  unfold patch
  rw [← Stralloc.text, List.take_append_of_le_length, List.take_of_length_le]
  · rw [List.length_append, length]
    exact Nat.le_refl _
  · rw [List.length_append, length]
    exact Nat.le_refl _

theorem cut_text (x : Stralloc) {n : Nat} (shorter : n ≤ x.len) :
    (x.cut n shorter).text = x.text.take n := by
  unfold Stralloc.cut Stralloc.text
  rw [List.take_take, Nat.min_eq_left shorter]

theorem copy_text (x : Stralloc) (s : Bytes) : (x.copy fresh s).text = s := by
  unfold Stralloc.copy
  rw [catb_text, cut_text, List.take_zero, List.nil_append]

/-- What a kind of rule makes of a name that ends in its `post`. -/
def made (excluded : Bytes) (ch : UInt8) (pre new : Bytes) : Option Bytes :=
  if ch = 61 then if pre = [] then some new else none
  else if ch = 42 then some (pre ++ new)
  else if ch = 63 then if ∀ b ∈ excluded, b ∉ pre then some (pre ++ new) else none
  else if ch = 45 then some new
  else none

/-- All rules have one form. -/
theorem rewrites_iff {ch : UInt8} {rule name new' : Bytes} :
    Rewrites excluded (ch :: rule) name new' ↔
      ∃ post new pre tail, rule = post ++ 58 :: new ∧ 58 ∉ post ∧ name = pre ++ tail ∧
        lower tail = lower post ∧ made excluded ch pre new = some new' := by
  constructor
  · intro rewrites
    cases rewrites with
    | exact clean same => exact ⟨_, _, [], _, rfl, clean, rfl, same, rfl⟩
    | any clean same => exact ⟨_, _, _, _, rfl, clean, rfl, same, rfl⟩
    | plain clean same free =>
      refine ⟨_, _, _, _, rfl, clean, rfl, same, ?_⟩
      unfold made
      rw [if_neg (by decide), if_neg (by decide), if_pos rfl, if_pos free]
    | whole clean same => exact ⟨_, _, _, _, rfl, clean, rfl, same, rfl⟩
  · rintro ⟨post, new, pre, tail, rfl, clean, rfl, same, h⟩
    unfold made at h
    split at h
    · rename_i exactly
      split at h
      · rename_i nothing
        cases h
        rw [exactly, nothing]
        exact .exact clean same
      · cases h
    · split at h
      · rename_i any
        cases h
        rw [any]
        exact .any clean same
      · split at h
        · rename_i plain
          split at h
          · rename_i free
            cases h
            rw [plain]
            exact .plain clean same free
          · cases h
        · split at h
          · rename_i whole
            cases h
            rw [whole]
            exact .whole clean same
          · cases h

/-- The `post` of a rule is what stands before its first colon. -/
theorem post_unique {post post' new new' : Bytes} (rules : post ++ 58 :: new = post' ++ 58 :: new')
    (clean : 58 ∉ post) (clean' : 58 ∉ post') : post = post' := by
  have length : post.length = post'.length := by
    rw [← byteChr_front clean new, rules, byteChr_front clean' new']
  exact (List.append_inj rules length).1

/-- A rule and the end of a name are cut apart in one way. -/
theorem parts_unique {post post' new new' pre pre' tail tail' : Bytes}
    (rules : post ++ 58 :: new = post' ++ 58 :: new') (clean : 58 ∉ post) (clean' : 58 ∉ post')
    (names : pre ++ tail = pre' ++ tail') (same : lower tail = lower post)
    (same' : lower tail' = lower post') : new = new' ∧ pre = pre' := by
  have posts := post_unique rules clean clean'
  subst posts
  have news := (List.cons.inj (List.append_cancel_left rules)).2
  have lengths : tail.length = tail'.length := by
    rw [← lower_length tail, same, ← same', lower_length]
  exact ⟨news, (List.append_inj' names lengths).1⟩

theorem rewrites_unique {rule name n n' : Bytes} (first : Rewrites excluded rule name n)
    (second : Rewrites excluded rule name n') : n = n' := by
  cases rule with
  | nil => cases first
  | cons ch rule =>
    obtain ⟨post, new, pre, tail, rfl, clean, rfl, same, h⟩ := rewrites_iff.mp first
    obtain ⟨post', new', pre', tail', rules, clean', names, same', h'⟩ := rewrites_iff.mp second
    obtain ⟨rfl, rfl⟩ := parts_unique rules clean clean' names same same'
    rw [h] at h'
    exact Option.some_inj.mp h'

theorem follows_unique {rule name n n' : Bytes} (first : Follows excluded rule name n)
    (second : Follows excluded rule name n') : n = n' := by
  rcases first with first | ⟨none, rfl⟩
  · rcases second with second | ⟨none, -⟩
    · exact rewrites_unique first second
    · exact absurd first (none n)
  · rcases second with second | ⟨-, rfl⟩
    · exact absurd second (none n')
    · rfl

/-- The rules leave one name. -/
theorem followsAll_unique {rules : List Bytes} {name n n' : Bytes}
    (first : FollowsAll excluded rules name n) (second : FollowsAll excluded rules name n') :
    n = n' := by
  induction first with
  | nil =>
    cases second
    rfl
  | cons one _ ih =>
    cases second with
    | cons one' rest =>
      rw [follows_unique one' one] at rest
      exact ih rest

/-- The kinds of rules there are. -/
theorem made_none {ch : UInt8} (unknown : ch ≠ 63 ∧ ch ≠ 61 ∧ ch ≠ 42 ∧ ch ≠ 45) (pre new : Bytes) :
    made excluded ch pre new = none := by
  obtain ⟨plain, exactly, any, whole⟩ := unknown
  unfold made
  rw [if_neg exactly, if_neg any, if_neg plain, if_neg whole]

/-- A rule is about the names that end in its `post`. -/
theorem rewrites_cut {ch : UInt8} {post new name new' : Bytes} (clean : 58 ∉ post) :
    Rewrites excluded (ch :: (post ++ 58 :: new)) name new' ↔
      post.length ≤ name.length ∧ lower (name.drop (name.length - post.length)) = lower post ∧
        made excluded ch (name.take (name.length - post.length)) new = some new' := by
  rw [rewrites_iff]
  constructor
  · rintro ⟨post', new₁, pre, tail, rules, clean', rfl, same, h⟩
    have posts := post_unique rules clean clean'
    subst posts
    have length : tail.length = post.length := by
      rw [← lower_length tail, same, lower_length]
    have behind : (pre ++ tail).length - post.length = pre.length := by
      rw [List.length_append, length, Nat.add_sub_cancel]
    obtain ⟨rfl, -⟩ := parts_unique rules clean clean' (rfl : pre ++ tail = pre ++ tail) same same
    rw [behind, List.drop_left, List.take_left]
    refine ⟨?_, same, h⟩
    rw [List.length_append, length]
    exact Nat.le_add_left _ _
  · rintro ⟨-, same, h⟩
    exact ⟨post, new, _, _, rfl, clean, (List.take_append_drop _ name).symm, same, h⟩

/-- **`doit` follows a rule.** -/
theorem doit_follows (work : Stralloc) (rule : Bytes) :
    Follows excluded rule work.text (doit fresh excluded work rule).text := by
  cases rule with
  | nil => exact .inr ⟨fun new h => (nomatch h), rfl⟩
  | cons ch rule =>
    rw [doit]
    by_cases unknown : ch ≠ 63 ∧ ch ≠ 61 ∧ ch ≠ 42 ∧ ch ≠ 45
    · rw [if_pos unknown]
      refine .inr ⟨fun new h => ?_, rfl⟩
      obtain ⟨_, _, _, _, _, _, _, _, h⟩ := rewrites_iff.mp h
      rw [made_none unknown] at h
      cases h
    rw [if_neg unknown]
    by_cases colonless : 58 ∉ rule
    · rw [if_pos colonless]
      refine .inr ⟨fun new h => ?_, rfl⟩
      obtain ⟨post, new, _, _, rfl, -⟩ := rewrites_iff.mp h
      exact absurd (List.mem_append_right _ List.mem_cons_self) colonless
    rw [if_neg colonless]
    obtain ⟨post, new, rfl, clean⟩ := List.eq_append_cons_of_mem (Decidable.not_not.mp colonless)
    have colon := byteChr_front clean new
    have behind := drop_front post 58 new
    have stays (none : ∀ new', ¬ Rewrites excluded (ch :: (post ++ 58 :: new)) work.text new') :
        Follows excluded (ch :: (post ++ 58 :: new)) work.text work.text := .inr ⟨none, rfl⟩
    simp only [colon, behind, List.take_left]
    by_cases short : work.len < post.length
    · rw [if_pos short]
      refine stays fun new' h => ?_
      have long := ((rewrites_cut clean).mp h).1
      rw [text_length] at long
      omega
    have front : work.block.take (work.len - post.length) =
        work.text.take (work.text.length - post.length) := by
      rw [text_length, Stralloc.text, List.take_take, Nat.min_eq_left (Nat.sub_le _ _)]
    have back : (work.block.drop (work.len - post.length)).take post.length =
        work.text.drop (work.text.length - post.length) := by
      rw [text_length, Stralloc.text, List.drop_take]
      congr 1
      omega
    have nothing : work.len - post.length ≠ 0 ↔
        work.text.take (work.text.length - post.length) ≠ [] := by
      rw [← List.length_pos_iff, List.length_take, text_length]
      omega
    rw [if_neg short]
    simp only [front, back, nothing]
    by_cases longer : ch = 61 ∧ work.text.take (work.text.length - post.length) ≠ []
    · rw [if_pos longer]
      refine stays fun new' h => ?_
      have result := ((rewrites_cut clean).mp h).2.2
      unfold made at result
      rw [if_pos longer.1, if_neg longer.2] at result
      cases result
    rw [if_neg longer]
    by_cases other : lower post ≠ lower (work.text.drop (work.text.length - post.length))
    · rw [if_pos other]
      exact stays fun new' h => other ((rewrites_cut clean).mp h).2.1.symm
    rw [if_neg other]
    by_cases dotted : ch = 63 ∧ ∃ b ∈ excluded, b ∈ work.text.take (work.text.length - post.length)
    · rw [if_pos dotted]
      refine stays fun new' h => ?_
      obtain ⟨rfl, b, hb, there⟩ := dotted
      have result := ((rewrites_cut clean).mp h).2.2
      unfold made at result
      rw [if_neg (by decide), if_neg (by decide), if_pos rfl, if_neg fun free => free b hb there]
        at result
      cases result
    rw [if_neg dotted, catb_text, cut_text]
    refine .inl ((rewrites_cut clean).mpr ⟨?_, (Decidable.not_not.mp other).symm, ?_⟩)
    · rw [text_length]
      exact Nat.not_lt.mp short
    rw [text_length] at longer dotted ⊢
    unfold made
    by_cases exactly : ch = 61
    · have nothing : work.text.take (work.len - post.length) = [] :=
        Decidable.not_not.mp fun h => longer ⟨exactly, h⟩
      rw [if_pos exactly, if_pos nothing, if_neg (by rw [exactly]; decide), nothing]
      rfl
    by_cases any : ch = 42
    · rw [if_neg exactly, if_pos any, if_neg (by rw [any]; decide)]
    by_cases plain : ch = 63
    · have free : ∀ b ∈ excluded, b ∉ work.text.take (work.len - post.length) :=
        fun b hb there => dotted ⟨plain, b, hb, there⟩
      rw [if_neg exactly, if_neg any, if_pos plain, if_pos free, if_neg (by rw [plain]; decide)]
    have whole : ch = 45 := Decidable.not_not.mp fun h => unknown ⟨plain, exactly, any, h⟩
    rw [if_neg exactly, if_neg any, if_neg plain, if_pos whole, if_pos whole]
    rfl

/-- **The first loop follows the rules.** -/
theorem rewrite_follows (work : Stralloc) (rules : Bytes) :
    FollowsAll excluded (ruleStrings rules) work.text (rewrite fresh excluded work rules).text := by
  unfold rewrite
  generalize ruleStrings rules = strings
  induction strings generalizing work with
  | nil => exact .nil
  | cons rule strings ih => exact .cons (doit_follows work rule) (ih _)

end

/-! ## The search -/

section

/-- What a lookup leaves of a block: the name, and all that is behind the octet that follows it. -/
structure Keeps (fqdn fqdn' : Stralloc) : Prop where
  text : fqdn'.text = fqdn.text
  behind : fqdn.block.drop (fqdn.len + 1) <+: fqdn'.block.drop (fqdn.len + 1)

/-- A lookup goes by the name alone. -/
def Answers (lookup : Nat → Stralloc → Option (Stralloc × Answer)) (answer : Nat → Bytes → Answer) :
    Prop :=
  ∀ k fqdn, ∃ fqdn', lookup k fqdn = some (fqdn', answer k fqdn.text) ∧ Keeps fqdn fqdn'

theorem Chosen.here {answer : Nat → Bytes → Answer} {name : Bytes} {names : List Bytes}
    (last : answer 0 name = .addresses [] → names = []) :
    Chosen answer (name :: names) name (answer 0 name) :=
  ⟨[], names, rfl, fun _ _ h => (nomatch h), rfl, last⟩

theorem Chosen.next {answer : Nat → Bytes → Answer} {first name : Bytes} {names : List Bytes}
    {out : Answer} (nothing : answer 0 first = .addresses [])
    (later : Chosen (fun k => answer (k + 1)) names name out) :
    Chosen answer (first :: names) name out := by
  obtain ⟨front, back, rfl, without, chosen, last⟩ := later
  refine ⟨first :: front, back, rfl, ?_, chosen, last⟩
  intro k other there
  cases k with
  | zero =>
    cases there
    exact nothing
  | succ k => exact without k other there

theorem moveDown_spec {fqdn : Stralloc} {plus i j : Nat} (order : plus ≤ i)
    (fits : i + j ≤ fqdn.block.length) :
    ∃ moved, fqdn.moveDown plus i j = some moved ∧
      moved.text = fqdn.block.take plus ++ (fqdn.block.drop i).take j ∧
      moved.len = plus + j ∧ moved.block.drop (plus + j) = fqdn.block.drop (plus + j) := by
  have length : ((fqdn.block.drop i).take j).length = j := by
    rw [List.length_take, List.length_drop]
    omega
  have copied := copyDown_eq order fits
  have room : plus + ((fqdn.block.drop i).take j).length ≤ fqdn.block.length := by
    rw [length]
    omega
  have size : plus + j ≤ (copyDown j plus i fqdn.block).length := by
    rw [copied, patch_length room]
    omega
  have front : (fqdn.block.take plus ++ (fqdn.block.drop i).take j).length = plus + j := by
    rw [List.length_append, length, List.length_take]
    omega
  unfold Stralloc.moveDown
  rw [dif_pos ⟨fits, size⟩]
  refine ⟨_, rfl, ?_, rfl, ?_⟩
  · show (copyDown j plus i fqdn.block).take (plus + j) = _
    rw [copied]
    unfold patch
    exact List.take_left' front
  · show (copyDown j plus i fqdn.block).drop (plus + j) = _
    rw [copied]
    unfold patch
    rw [List.drop_left' front, length]

/-- The names that are still to come are cut apart like the text they stand in. -/
theorem split_plus (s : Bytes) :
    byteChr 43 s = s.length ∧ split 43 s = [s] ∨
      ∃ front rest, s = front ++ 43 :: rest ∧ byteChr 43 s = front.length ∧
        split 43 s = front :: split 43 rest := by
  by_cases plus : 43 ∈ s
  · obtain ⟨front, rest, rfl, clean⟩ := List.eq_append_cons_of_mem plus
    exact .inr ⟨front, rest, rfl, byteChr_front clean rest, split_append clean rest⟩
  · exact .inl ⟨byteChr_clean plus, split_clean plus⟩

variable {lookup : Nat → Stralloc → Option (Stralloc × Answer)} {answer : Nat → Bytes → Answer}

/-- **The second loop chooses among the names**, none of which is lost to those before it. -/
theorem search_chosen (answers : Answers lookup answer) {plus n i round : Nat} {fqdn : Stralloc}
    {rest : Bytes} (order : plus < i) (start : i ≤ n) (fits : n ≤ fqdn.block.length)
    (length : rest.length = n - i) (there : rest <+: fqdn.block.drop i) :
    ∃ fqdn' out, search lookup plus n round i fqdn = some (fqdn', out) ∧
      Chosen (fun k => answer (round + k)) ((split 43 rest).map (fqdn.block.take plus ++ ·))
        fqdn'.text out := by
  induction hsize : n - i using Nat.strongRecOn generalizing i round fqdn rest with
  | ind size ih =>
    have cut : (fqdn.block.drop i).take (n - i) = rest := by
      rw [← length]
      exact (List.prefix_iff_eq_take.mp there).symm
    rw [search]
    simp only [cut]
    have within := byteChr_le 43 rest
    obtain ⟨moved, run, text, len, behind⟩ := @moveDown_spec fqdn plus i (byteChr 43 rest)
      (by omega) (by omega)
    obtain ⟨fqdn', asked, kept⟩ := answers round moved
    have name : moved.text = fqdn.block.take plus ++ rest.take (byteChr 43 rest) := by
      rw [text, ← cut, List.take_take, Nat.min_eq_left (by rw [cut]; omega)]
    have first : ∃ more, split 43 rest = rest.take (byteChr 43 rest) :: more := by
      obtain ⟨whole, cuts⟩ | ⟨front, back, rfl, place, cuts⟩ := split_plus rest
      · exact ⟨[], by rw [cuts, whole, List.take_length]⟩
      · exact ⟨split 43 back, by rw [cuts, place, List.take_left]⟩
    obtain ⟨more, cuts⟩ := first
    have here {out : Answer} (got : answer round moved.text = out)
        (last : out = .addresses [] → more = []) :
        Chosen (fun k => answer (round + k)) ((split 43 rest).map (fqdn.block.take plus ++ ·))
          fqdn'.text out := by
      rw [cuts, List.map_cons, kept.text, name, ← got, name]
      refine @Chosen.here (fun k => answer (round + k)) _ _ fun nothing => ?_
      rw [last (by rw [← got, name]; exact nothing)]
      rfl
    rw [run, Option.bind_some, asked]
    cases got : answer round moved.text with
    | failed => exact ⟨fqdn', .failed, rfl, here got fun h => by cases h⟩
    | addresses ips =>
      cases ips with
      | cons b bs => exact ⟨fqdn', .addresses (b :: bs), rfl, here got fun h => by cases h⟩
      | nil =>
        dsimp only
        by_cases done : n ≤ i + byteChr 43 rest
        · rw [if_pos done]
          refine ⟨fqdn', .addresses [], rfl, here got fun _ => ?_⟩
          obtain ⟨whole, cuts'⟩ | ⟨front, back, rfl, place, -⟩ := split_plus rest
          · rw [cuts'] at cuts
            exact (List.cons.inj cuts).2.symm
          · rw [List.length_append, List.length_cons] at length
            omega
        · rw [if_neg done]
          obtain ⟨whole, -⟩ | ⟨front, back, rfl, place, cuts'⟩ := split_plus rest
          · omega
          · rw [place] at behind len name done ⊢
            rw [List.take_left] at name
            rw [List.length_append, List.length_cons] at length
            have later : back <+: fqdn'.block.drop (i + front.length + 1) := by
              obtain ⟨t, whole⟩ := there
              have unmoved : moved.block.drop (i + front.length + 1) = back ++ t := by
                have split : i + front.length + 1 = plus + front.length + (i + 1 - plus) := by omega
                rw [split, ← List.drop_drop, behind, List.drop_drop, ← split, Nat.add_assoc,
                  ← List.drop_drop, ← whole, List.append_assoc, List.cons_append,
                  drop_front]
              have kept := kept.behind.drop (i - plus)
              rw [List.drop_drop, List.drop_drop, len] at kept
              have place : plus + front.length + 1 + (i - plus) = i + front.length + 1 := by omega
              rw [place, unmoved] at kept
              exact (List.prefix_append back t).trans kept
            have same : fqdn'.block.take plus = fqdn.block.take plus := by
              have text := kept.text
              rw [name] at text
              have size := text_length fqdn'
              rw [text, List.length_append, List.length_take] at size
              have inside := congrArg (List.take plus) text
              rw [Stralloc.text, List.take_take, Nat.min_eq_left (by omega),
                List.take_append_of_le_length (by rw [List.length_take]; omega), List.take_take,
                Nat.min_self] at inside
              exact inside
            have room : n ≤ fqdn'.block.length := by
              have prefixed := later.length_le
              have kept := kept.behind.length_le
              have size := congrArg List.length behind
              simp only [List.length_drop] at prefixed kept size
              omega
            obtain ⟨fqdn'', out, ran, chosen⟩ := @ih (n - (i + front.length + 1)) (by omega)
              (i + front.length + 1) (round + 1) fqdn' back (by omega) (by omega) room (by omega)
              later rfl
            refine ⟨fqdn'', out, ran, ?_⟩
            rw [cuts', List.map_cons, ← name]
            refine @Chosen.next (fun k => answer (round + k)) _ _ _ _ got ?_
            rw [same] at chosen
            simp only [Nat.add_right_comm round _ 1, ← Nat.add_assoc] at chosen ⊢
            exact chosen

/-- **Qualification**: the rules are followed, and one of the names that are left is chosen. -/
theorem qualifyRules_chosen (answers : Answers lookup answer) (fresh : Nat → UInt8)
    (excluded : Bytes) (fqdn : Stralloc) (input rules : Bytes) :
    ∃ name fqdn' out, FollowsAll excluded (ruleStrings rules) input name ∧
      qualifyRules fresh lookup excluded fqdn input rules = some (fqdn', out) ∧
      Chosen answer (alternatives name) fqdn'.text out := by
  have followed := @rewrite_follows fresh excluded (fqdn.copy fresh input) rules
  rw [copy_text] at followed
  unfold qualifyRules
  generalize rewrite fresh excluded (fqdn.copy fresh input) rules = work at followed ⊢
  have size := text_length work
  dsimp only
  unfold alternatives
  obtain ⟨whole, cuts⟩ | ⟨front, back, halves, place, cuts⟩ := split_plus work.text
  · obtain ⟨fqdn', asked, kept⟩ := answers 0 work
    rw [if_pos (by omega)]
    refine ⟨_, fqdn', _, followed, asked, ?_⟩
    rw [cuts, kept.text]
    exact Chosen.here fun _ => rfl
  · have length := congrArg List.length halves
    rw [List.length_append, List.length_cons] at length
    have there : back <+: work.block.drop (front.length + 1) := by
      have behind := congrArg (List.drop (front.length + 1)) halves
      rw [drop_front, Stralloc.text, List.drop_take] at behind
      rw [← behind]
      exact List.take_prefix _ _
    have before : work.block.take front.length = front := by
      have before := congrArg (List.take front.length) halves
      rwa [List.take_left, Stralloc.text, List.take_take, Nat.min_eq_left (by omega)] at before
    rw [if_neg (by omega), place]
    obtain ⟨fqdn', out, ran, chosen⟩ := @search_chosen lookup answer answers front.length
      work.len (front.length + 1) 0 work back (Nat.lt_succ_self _) (by omega) work.fits (by omega)
      there
    refine ⟨_, fqdn', out, followed, ran, ?_⟩
    simp only [Nat.zero_add, before] at chosen
    rw [cuts]
    cases hsplit : split 43 back with
    | nil => exact absurd hsplit (split_ne_nil 43 back)
    | cons y ys =>
      rw [hsplit] at chosen
      exact chosen

end

/-! ## The lookups -/

section

variable {fresh : Nat → UInt8} {x : Ip6.Xlong}

theorem Keeps.refl (fqdn : Stralloc) : Keeps fqdn fqdn := ⟨rfl, List.prefix_refl _⟩

theorem dnsIp4_answers (network : Nat → Name → Answer) :
    Answers (dnsIp4 network) (answer4 network) :=
  fun _ fqdn => ⟨fqdn, rfl, Keeps.refl fqdn⟩

theorem readyplus_block (fqdn : Stralloc) (n : Nat) : fqdn.block <+: (fqdn.readyplus fresh n).block := by
  unfold Stralloc.readyplus
  split
  · exact List.prefix_refl _
  · exact List.prefix_append _ _

/-- The zero is put behind the name. -/
theorem terminate_block (fqdn : Stralloc) : (fqdn.terminate fresh).block =
    fqdn.text ++ 0 :: (fqdn.readyplus fresh 1).block.drop (fqdn.len + 1) := by
  have room := Stralloc.readyplus_room fresh fqdn 1
  have len := @readyplus_len fresh fqdn 1
  show (fqdn.readyplus fresh 1).block.set (fqdn.readyplus fresh 1).len 0 = _
  rw [List.set_eq_take_append_cons_drop, if_pos (Nat.lt_of_succ_le room), ← Stralloc.text,
    readyplus_text, len]

theorem terminate_text (fqdn : Stralloc) : (fqdn.terminate fresh).text = fqdn.text := by
  have len : (fqdn.terminate fresh).len = fqdn.len := readyplus_len fqdn 1
  rw [Stralloc.text, terminate_block, len]
  exact List.take_left' (text_length fqdn)

theorem terminate_keeps (fqdn : Stralloc) : Keeps fqdn (fqdn.terminate fresh) := by
  refine ⟨terminate_text fqdn, ?_⟩
  have size := text_length fqdn
  rw [terminate_block, ← size, drop_front]
  exact (readyplus_block fqdn 1).drop _

/-- What is read up to a zero ends where the name does, or in it. -/
theorem cString_terminated (s rest : Bytes) : cString (s ++ 0 :: rest) = cString s ∧
    ((s ++ 0 :: rest)[(cString s).length]? = some 0 ∧
      ∀ i < (cString s).length, ∃ b, (s ++ 0 :: rest)[i]? = some b ∧ b ≠ 0) := by
  induction s with
  | nil => exact ⟨rfl, rfl, fun i hi => absurd hi (Nat.not_lt_zero i)⟩
  | cons b s ih =>
    obtain ⟨same, last, before⟩ := ih
    unfold cString at same last before ⊢
    by_cases zero : b = 0
    · rw [zero]
      exact ⟨rfl, rfl, fun i hi => absurd hi (Nat.not_lt_zero i)⟩
    · have kept (t : Bytes) : (b :: t).takeWhile (· != 0) = b :: t.takeWhile (· != 0) :=
        List.takeWhile_cons_of_pos (by simpa using zero)
      rw [List.cons_append, kept, kept, same]
      refine ⟨rfl, last, fun i hi => ?_⟩
      cases i with
      | zero => exact ⟨b, rfl, zero⟩
      | succ i => exact before i (Nat.lt_of_succ_lt_succ hi)

/-- **`dns_ip6` goes by the name alone**, though it writes behind it. -/
theorem dnsIp6_answers (reads : x.Reads) (network : Nat → Name → Bytes) :
    Answers (dnsIp6 fresh x network) (answer6 x network) := by
  intro k fqdn
  refine ⟨fqdn.terminate fresh, ?_, terminate_keeps fqdn⟩
  have block := @terminate_block fresh fqdn
  obtain ⟨string, last, before⟩ :=
    cString_terminated fqdn.text ((fqdn.readyplus fresh 1).block.drop (fqdn.len + 1))
  rw [← block] at string last before
  unfold dnsIp6 answer6
  dsimp only
  rw [string, terminate_text]
  cases scanned : Ip6.ip6Scan x (cString fqdn.text) with
  | none => rfl
  | some read =>
    obtain ⟨i, ip⟩ := read
    have within : i ≤ (cString fqdn.text).length := Ip6.ip6Scan_within reads scanned
    dsimp only
    by_cases more : i < (cString fqdn.text).length
    · obtain ⟨b, there, some⟩ := before i more
      simp only [there, if_pos more, if_pos some]
    · have all : i = (cString fqdn.text).length := by omega
      rw [← all] at last
      simp only [last, if_neg more]
      rfl

end

/-! ## Both -/

/-- The addresses of the first name that has any; where none has, the last name is left. -/
def FirstWithAny (answer : Nat → Bytes → Answer) (names : List Bytes) (name : Bytes) (out : Answer) :
    Prop :=
  let nothing (k : Nat) (other : Bytes) := ∀ ips, answer k other = .addresses ips → ips = []
  (∃ front back ips, names = front ++ name :: back ∧
    (∀ (k : Nat) (other : Bytes), front[k]? = some other → nothing k other) ∧
    answer front.length name = .addresses ips ∧ ips ≠ [] ∧ out = .addresses ips) ∨
  (∀ (k : Nat) (other : Bytes), names[k]? = some other → nothing k other) ∧
    names.getLast? = some name

/-- **Names are qualified as documented**: the rules are followed in order, and of the names that are
left, the first one is chosen that has addresses or whose lookup fails, or else the last one. -/
theorem qualify_rules {x : Ip6.Xlong} (reads : x.Reads) (fresh : Nat → UInt8)
    (network4 : Nat → Name → Answer) (network6 : Nat → Name → Bytes) (fqdn : Stralloc)
    (input rules : Bytes) :
    (∃ name fqdn' out, FollowsAll [46, 91, 93] (ruleStrings rules) input name ∧
      dnsIp4QualifyRules fresh network4 fqdn input rules = some (fqdn', out) ∧
      Chosen (answer4 network4) (alternatives name) fqdn'.text out) ∧
    ∃ name fqdn' out, FollowsAll [46, 58, 91, 93] (ruleStrings rules) input name ∧
      dnsIp6QualifyRules fresh x network6 fqdn input rules = some (fqdn', out) ∧
      Chosen (answer6 x network6) (alternatives name) fqdn'.text out :=
  ⟨qualifyRules_chosen (dnsIp4_answers network4) fresh _ fqdn input rules,
    qualifyRules_chosen (dnsIp6_answers reads network6) fresh _ fqdn input rules⟩

/-- The example of the manual page, in a block that is too small at first. -/
def heaven : Bytes := ascii "?:+.heaven.af.mil+.af.mil" ++ [0]

def small : Stralloc := ⟨[7], 0, Nat.zero_le _⟩

theorem qualify_rules_heaven :
    (∃ name fqdn' out, FollowsAll [46, 91, 93] (ruleStrings heaven) (ascii "lion") name ∧
      dnsIp4QualifyRules (fun _ => 7) (fun _ _ => .addresses []) small (ascii "lion") heaven =
        some (fqdn', out) ∧
      Chosen (answer4 fun _ _ => .addresses []) (alternatives name) fqdn'.text out) ∧
    ∃ name fqdn' out, FollowsAll [46, 58, 91, 93] (ruleStrings heaven) (ascii "lion") name ∧
      dnsIp6QualifyRules (fun _ => 7) Ip6.hexadecimal (fun _ _ => []) small (ascii "lion") heaven =
        some (fqdn', out) ∧
      Chosen (answer6 Ip6.hexadecimal fun _ _ => []) (alternatives name) fqdn'.text out :=
  qualify_rules Ip6.hexadecimal_reads (fun _ => 7) (fun _ _ => .addresses []) (fun _ _ => []) small
    (ascii "lion") heaven

/-- A network that does not answer at first. -/
def late (round : Nat) (_ : Name) : Answer := if round = 0 then .failed else .addresses [10, 0, 0, 1]

/-- A lookup that fails ends the search in front of a name that has addresses. -/
theorem search_stopped :
    ¬ ∀ (network : Nat → Name → Answer) (fqdn : Stralloc) (input rules : Bytes),
      ∃ name fqdn' out, FollowsAll [46, 91, 93] (ruleStrings rules) input name ∧
        dnsIp4QualifyRules (fun _ => 0) network fqdn input rules = some (fqdn', out) ∧
        FirstWithAny (answer4 network) (alternatives name) fqdn'.text out := by
  intro all
  obtain ⟨name, fqdn', out, followed, run, chosen⟩ := all late small (ascii "a+.x+.y") []
  have stopped : (dnsIp4QualifyRules (fun _ => 0) late small (ascii "a+.x+.y") []).map
      (fun result => (result.1.text, result.2)) = some (ascii "a.x", .failed) := by decide +kernel
  have same : name = ascii "a+.x+.y" := followsAll_unique followed .nil
  rw [run, Option.map_some] at stopped
  have failed : out = .failed := (Prod.mk.inj (Option.some_inj.mp stopped)).2
  rw [same, failed] at chosen
  obtain ⟨_, _, _, _, _, _, _, out⟩ | ⟨nothing, -⟩ := chosen
  · cases out
  · have second := nothing 1 (ascii "a.y") (by decide +kernel) [10, 0, 0, 1] (by decide +kernel)
    cases second

end TinyDnssec.Qualify
