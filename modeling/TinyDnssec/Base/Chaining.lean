import Mathlib.Data.List.Basic

/-!
# Chaining over blocks

A message is taken in blocks of one width, and each block takes a chaining value on. What stands behind
the last whole block waits until more of the message comes. The value and what waits are all that has to
be kept of a message: with more behind it, they go where the whole message goes (`chain_append`,
`rest_append`).
-/

namespace Chaining

variable {α σ : Type}

/-- The chaining value behind the whole blocks of a message. -/
def chain (width : Nat) (compress : σ → List α → σ) (st : σ) (m : List α) : σ :=
  (List.range (m.length / width)).foldl (fun st k => compress st ((m.drop (k * width)).take width)) st

/-- What a message has behind its whole blocks. -/
def rest (width : Nat) (m : List α) : List α :=
  m.drop (m.length / width * width)

variable {width : Nat} {compress : σ → List α → σ}

theorem rest_length (m : List α) : (rest width m).length = m.length % width := by
  unfold rest
  rw [List.length_drop, Nat.mod_eq_sub_div_mul]

theorem rest_lt (pos : 0 < width) (m : List α) : (rest width m).length < width := by
  rw [rest_length]
  exact Nat.mod_lt _ pos

theorem chain_short {m : List α} (short : m.length < width) (st : σ) :
    chain width compress st m = st := by
  unfold chain
  rw [Nat.div_eq_of_lt short]
  rfl

theorem rest_short {m : List α} (short : m.length < width) : rest width m = m := by
  unfold rest
  rw [Nat.div_eq_of_lt short, Nat.zero_mul]
  rfl

theorem chain_cons (pos : 0 < width) {b : List α} (block : b.length = width) (m : List α) (st : σ) :
    chain width compress st (b ++ m) = chain width compress (compress st b) m := by
  have hcount : (b ++ m).length / width = m.length / width + 1 := by
    rw [List.length_append, block, Nat.add_comm, Nat.add_div_right _ pos]
  have hfirst : (b ++ m).take width = b := List.take_left' block
  have hlater : ∀ k, (b ++ m).drop ((k + 1) * width) = m.drop (k * width) := by
    intro k
    rw [Nat.add_mul, Nat.one_mul, Nat.add_comm, ← List.drop_drop, List.drop_left' block]
  unfold chain
  rw [hcount, List.range_succ_eq_map, List.foldl_cons, List.foldl_map, Nat.zero_mul, List.drop_zero,
    hfirst]
  simp only [Nat.succ_eq_add_one, hlater]

theorem rest_cons (pos : 0 < width) {b : List α} (block : b.length = width) (m : List α) :
    rest width (b ++ m) = rest width m := by
  unfold rest
  rw [List.length_append, block, Nat.add_comm, Nat.add_div_right _ pos, Nat.add_mul, Nat.one_mul,
    Nat.add_comm, ← List.drop_drop, List.drop_left' block]

/-- Every message is blocks and what is behind them: what holds of short ones, and with a block in front,
holds of all. -/
theorem blocks_induction {P : List α → Prop} (pos : 0 < width)
    (short : ∀ m, m.length < width → P m) (cons : ∀ b m, b.length = width → P m → P (b ++ m))
    (m : List α) : P m := by
  induction hlen : m.length using Nat.strongRecOn generalizing m with
  | _ n ih =>
    by_cases hshort : m.length < width
    · exact short m hshort
    · have hblock : (m.take width).length = width := by
        rw [List.length_take]
        omega
      have hless : (m.drop width).length < n := by
        rw [List.length_drop]
        omega
      have htail := cons _ _ hblock (ih _ hless _ rfl)
      rwa [List.take_append_drop] at htail

variable (pos : 0 < width)
include pos

/-- **What comes behind a message** goes on from its chaining value and from what waits. -/
theorem chain_append (m more : List α) (st : σ) :
    chain width compress st (m ++ more) =
      chain width compress (chain width compress st m) (rest width m ++ more) := by
  induction m using blocks_induction pos generalizing st with
  | short m short => rw [chain_short short, rest_short short]
  | cons b m block ih => rw [List.append_assoc, chain_cons pos block, chain_cons pos block,
      rest_cons pos block, ih]

theorem rest_append (m more : List α) : rest width (m ++ more) = rest width (rest width m ++ more) := by
  induction m using blocks_induction pos with
  | short m short => rw [rest_short short]
  | cons b m block ih => rw [List.append_assoc, rest_cons pos block, rest_cons pos block, ih]

end Chaining
