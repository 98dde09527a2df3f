import TinyDnssec.Base.Lines
import TinyDnssec.Base.Run
import TinyDnssec.Data.Scan

/-!
# dnsfilter

Lines are read as they come, put into an array, and written when the lookup for the first one of
them has ended. The array is turned by one entry each time.

A lookup may fail in three ways. In two of them the error stands behind the address alone; where
`dns_name_packet` fails, an equals sign is put in front of it, as in front of a name.

That memory runs out, or that there is no `/etc/resolv.conf`, ends the program and is left out.
-/

namespace TinyDnssec.Dnsfilter

open Octets

/-! ## `dnsfilter.c` -/

/-- `-l` and `-c`, as `main` bounds them. -/
structure Limits where
  xmax : Nat
  maxactive : Nat
  lines : 1 ≤ xmax ∧ xmax ≤ 1000000
  concurrency : 1 ≤ maxactive ∧ maxactive ≤ 1000

/-- What `dns_transmit_get` comes to in the end: -1 and an error, or a packet, with what
`dns_name_packet` makes of it: -1 and an error, or a name, which may be empty. -/
inductive Got where
  | failed (why : Bytes)
  | packet (answer : Except Bytes Bytes)

/-- What the lookup for a line leads to: `dns_transmit_start` returns -1, or it is started. -/
inductive Lookup where
  | unstarted (why : Bytes)
  | started (got : Got)

/-- `struct line`. What the transmission will come to is in its state. -/
structure Line where
  left : Bytes
  middle : Bytes
  right : Bytes
  dt : Got
  flagactive : Bool

/-- An entry of the array as `byte_zero` leaves it. -/
def blank : Line := ⟨[], [], [], .failed [], false⟩

namespace Line

/-- `errout` -/
def errout (why : Bytes) (l : Line) : Line :=
  { l with middle := (58 :: why).map fun b => if b = 32 then 45 else b }

/-- What is done when `dns_transmit_get` has returned -1 or 1. -/
def finish (l : Line) : Line :=
  match l.dt with
  | .failed why => { l.errout why with flagactive := false }
  | .packet answer =>
    let l := match answer with
      | .error why => l.errout why
      | .ok name => { l with middle := name }
    let l := if l.middle ≠ [] then { l with left := l.left ++ [61] } else l
    { l with flagactive := false }

/-- The three searches for the end of the leading word. -/
def leading (s : Bytes) : Nat :=
  let i := byteChr 10 s
  let i := byteChr 9 (s.take i)
  byteChr 32 (s.take i)

/-- An entry for a line, in place of an old one. -/
def fill (s : Bytes) (lookup : Lookup) (l : Line) : Line :=
  let i := leading s
  let l := { l with left := s.take i, middle := [], right := s.drop i, flagactive := false }
  if (ip4Scan (s.take i)).isSome then
    match lookup with
    | .unstarted why => l.errout why
    | .started got => { l with dt := got, flagactive := true }
  else l

end Line

structure State where
  x : List Line
  xnum : Nat
  numactive : Nat
  /-- `partial` -/
  begun : Bytes
  inbuf : Bytes
  flag0 : Bool
  /-- what `read` has not returned yet -/
  rest : Bytes
  /-- how many lines were written -/
  shown : Nat
  out : Bytes

/-- One round of the main loop: how many octets more than one `read` may return, if there is anything
to read, and the numbers of the lines for which `dns_transmit_get` does not return 0. -/
structure Turn where
  ready : Option Nat
  finished : Nat → Bool

namespace State

def start (limits : Limits) (input : Bytes) : State where
  x := List.replicate limits.xmax blank
  xnum := 0
  numactive := 0
  begun := []
  inbuf := []
  flag0 := true
  rest := input
  shown := 0
  out := []

/-- The condition of the main loop does not hold. -/
def Over (s : State) : Prop := s.flag0 = false ∧ s.inbuf = [] ∧ s.begun = [] ∧ s.xnum = 0

instance : DecidablePred Over := fun s =>
  inferInstanceAs (Decidable (s.flag0 = false ∧ s.inbuf = [] ∧ s.begun = [] ∧ s.xnum = 0))

/-- The call of `read`. -/
def read (ready : Option Nat) (s : State) : State :=
  if s.flag0 = true ∧ s.inbuf.length < 1024 then
    match ready with
    | none => s
    | some n =>
      let r := s.rest.take (min (n + 1) (1024 - s.inbuf.length))
      if r = [] then { s with flag0 := false }
      else { s with inbuf := s.inbuf ++ r, rest := s.rest.drop r.length }
  else s

/-- The loop over the active lines, from the line with number `n` on. -/
def getGo (finished : Nat → Bool) : Nat → List Line → Nat → List Line × Nat
  | _, [], numactive => ([], numactive)
  | n, l :: ls, numactive =>
    if l.flagactive = true ∧ finished n = true then
      let (ls, numactive) := getGo finished (n + 1) ls (numactive - 1)
      (l.finish :: ls, numactive)
    else
      let (ls, numactive) := getGo finished (n + 1) ls numactive
      (l :: ls, numactive)

def get (finished : Nat → Bool) (s : State) : State :=
  let (ls, numactive) := getGo finished s.shown (s.x.take s.xnum) s.numactive
  { s with x := ls ++ s.x.drop s.xnum, numactive := numactive }

/-- The first line, if its lookup has ended. -/
def first (s : State) : Option Line :=
  if 0 < s.xnum then s.x.head?.filter fun l => !l.flagactive else none

/-- The first line is written, and its entry put behind the others. -/
def put (l : Line) (s : State) : State :=
  let xnum := s.xnum - 1
  { s with
    out := s.out ++ (l.left ++ l.middle ++ l.right)
    xnum := xnum
    x := (s.x.drop 1).take xnum ++ s.x.take 1 ++ s.x.drop (xnum + 1)
    shown := s.shown + 1 }

variable (limits : Limits) (lookups : Nat → Lookup)

/-- A line is put into the array, and its lookup is started. -/
def add (s : State) : State :=
  let x := s.x.modify s.xnum (Line.fill s.begun (lookups (s.shown + s.xnum)))
  { s with
    x := x
    xnum := s.xnum + 1
    numactive :=
      if x[s.xnum]?.map Line.flagactive = some true then s.numactive + 1 else s.numactive }

/-- One round of the inner loop; nothing, where it breaks. -/
def step (s : State) : Option State :=
  match s.first with
  | some l => some (s.put l)
  | none =>
    if s.xnum < limits.xmax ∧ s.numactive < limits.maxactive then
      let i := byteChr 10 s.inbuf
      if s.inbuf ≠ [] ∧ i = s.inbuf.length then
        some { s with begun := s.begun ++ s.inbuf, inbuf := [] }
      else if i < s.inbuf.length ∨ s.flag0 = false ∧ s.begun ≠ [] then
        let i := if i < s.inbuf.length then i + 1 else i
        let s := { s with begun := s.begun ++ s.inbuf.take i, inbuf := s.inbuf.drop i }
        let s := if s.begun ≠ [] then s.add lookups else s
        some { s with begun := [] }
      else none
    else none

/-- What each round of the inner loop makes smaller. -/
def weight (s : State) : Nat := 3 * s.inbuf.length + 2 * s.begun.length + s.xnum

theorem first_some {s : State} {l : Line} (h : s.first = some l) :
    0 < s.xnum ∧ ∃ ls, s.x = l :: ls ∧ l.flagactive = false := by
  unfold first at h
  split at h
  · rename_i some
    refine ⟨some, ?_⟩
    obtain ⟨head, inactive⟩ := Option.filter_eq_some_iff.mp h
    obtain ⟨ls, entries⟩ := List.head?_eq_some_iff.mp head
    exact ⟨ls, entries, by simpa using inactive⟩
  · cases h

variable {limits lookups} in
/-- A line that is taken, when there is one. -/
theorem step_cases {s s' : State} (h : s.step limits lookups = some s') :
    (∃ l, s.first = some l ∧ s' = s.put l) ∨
    s.first = none ∧ (s.xnum < limits.xmax ∧ s.numactive < limits.maxactive) ∧
      (s.inbuf ≠ [] ∧ 10 ∉ s.inbuf ∧ s' = { s with begun := s.begun ++ s.inbuf, inbuf := [] } ∨
        (∃ front back, s.inbuf = front ++ 10 :: back ∧ 10 ∉ front ∧
          s' = { { s with begun := s.begun ++ front ++ [10], inbuf := back }.add lookups with
            begun := [] }) ∨
        s.inbuf = [] ∧ s.flag0 = false ∧ s.begun ≠ [] ∧
          s' = { s.add lookups with begun := [] }) := by
  unfold step at h
  cases hfirst : s.first with
  | some l =>
    rw [hfirst] at h
    cases h
    exact .inl ⟨l, rfl, rfl⟩
  | none =>
    rw [hfirst] at h
    dsimp only at h
    refine .inr ⟨rfl, ?_⟩
    by_cases room : s.xnum < limits.xmax ∧ s.numactive < limits.maxactive
    · rw [if_pos room] at h
      refine ⟨room, ?_⟩
      by_cases newline : 10 ∈ s.inbuf
      · obtain ⟨front, back, cut, clean⟩ := List.eq_append_cons_of_mem newline
        have place : byteChr 10 s.inbuf = front.length := by
          rw [cut, byteChr_front clean]
        have inside : front.length < s.inbuf.length := by
          rw [cut, List.length_append, List.length_cons]
          omega
        have front' : s.inbuf.take (front.length + 1) = front ++ [10] := by
          rw [cut, take_front]
        have back' : s.inbuf.drop (front.length + 1) = back := by
          rw [cut, drop_front]
        have more : s.begun ++ (front ++ [10]) ≠ [] := by simp
        refine .inr (.inl ⟨front, back, cut, clean, ?_⟩)
        rw [place, if_neg fun h => absurd h.2 (Nat.ne_of_lt inside), if_pos (.inl inside)] at h
        simp only [if_pos inside, front', back', if_pos more] at h
        cases h
        rw [List.append_assoc]
      · have place : byteChr 10 s.inbuf = s.inbuf.length := byteChr_clean newline
        rw [place] at h
        by_cases empty : s.inbuf = []
        · rw [if_neg fun h => h.1 empty] at h
          by_cases last : s.flag0 = false ∧ s.begun ≠ []
          · have nothing : s.begun ++ s.inbuf.take s.inbuf.length = s.begun ∧
                s.inbuf.drop s.inbuf.length = s.inbuf := by
              rw [empty]
              exact ⟨List.append_nil _, rfl⟩
            rw [if_pos (.inr last)] at h
            simp only [if_neg (Nat.lt_irrefl _), nothing, if_pos last.2] at h
            cases h
            exact .inr (.inr ⟨empty, last.1, last.2, rfl⟩)
          · rw [if_neg] at h
            · cases h
            · rintro (inside | last')
              · exact Nat.lt_irrefl _ inside
              · exact last last'
        · rw [if_pos ⟨empty, rfl⟩] at h
          cases h
          exact .inl ⟨empty, newline, rfl⟩
    · rw [if_neg room] at h
      cases h

theorem step_smaller {limits : Limits} {lookups : Nat → Lookup} {s s' : State}
    (h : s.step limits lookups = some s') : s'.weight < s.weight := by
  unfold weight
  obtain ⟨l, first, rfl⟩ | ⟨-, -, h⟩ := step_cases h
  · have some := (first_some first).1
    show 3 * s.inbuf.length + 2 * s.begun.length + (s.xnum - 1) < _
    omega
  · obtain ⟨some, -, rfl⟩ | ⟨front, back, cut, -, rfl⟩ | ⟨empty, -, begun, rfl⟩ := h
    · have some := List.length_pos_iff.mpr some
      simp only [List.length_append, List.length_nil]
      omega
    · show 3 * back.length + 2 * ([] : Bytes).length + (s.xnum + 1) < _
      rw [cut, List.length_append, List.length_cons, List.length_nil]
      omega
    · have some := List.length_pos_iff.mpr begun
      show 3 * s.inbuf.length + 2 * ([] : Bytes).length + (s.xnum + 1) < _
      rw [List.length_nil]
      omega

/-- The inner loop. -/
def settle (s : State) : State :=
  match _next : s.step limits lookups with
  | none => s
  | some s' => s'.settle
termination_by s.weight
decreasing_by exact step_smaller _next

def turn (t : Turn) (s : State) : State := ((s.read t.ready).get t.finished).settle limits lookups

/-- The main loop, after so many rounds. -/
def after (input : Bytes) (turns : Nat → Turn) : Nat → State
  | 0 => start limits input
  | n + 1 =>
    let s := after input turns n
    if s.Over then s else s.turn limits lookups (turns n)

end State

/-! ## What is promised -/

/-- The leading word of a line. -/
def word (line : Bytes) : Bytes := line.takeWhile fun b => b ≠ 10 ∧ b ≠ 9 ∧ b ≠ 32

/-- A colon and an error message with dashes. -/
def errorText (why : Bytes) : Bytes := 58 :: why.map fun b => if b = 32 then 45 else b

def nameText (name : Bytes) : Bytes := if name = [] then [] else 61 :: name

/-- What a lookup inserts: an equals sign and the name, or the error. -/
def insertion : Lookup → Bytes
  | .unstarted why => errorText why
  | .started (.failed why) => errorText why
  | .started (.packet (.error why)) => errorText why
  | .started (.packet (.ok name)) => nameText name

/-- A line with what its lookup inserts behind the leading word, if that begins with an address. -/
def lineWith (insertion : Lookup → Bytes) (lookup : Lookup) (line : Bytes) : Bytes :=
  word line ++ (if (ip4Scan (word line)).isSome then insertion lookup else []) ++
    line.drop (word line).length

/-- Lines, from number `n` on. -/
def linesWith (insertion : Lookup → Bytes) (lookups : Nat → Lookup) : Nat → List Bytes → Bytes
  | _, [] => []
  | n, l :: ls => lineWith insertion (lookups n) l ++ linesWith insertion lookups (n + 1) ls

/-- There is always more to read some time, or the end, and no lookup takes for ever. -/
structure Fair (turns : Nat → Turn) : Prop where
  reads : ∀ t, ∃ u, t ≤ u ∧ (turns u).ready ≠ none
  ends : ∀ t n, ∃ u, t ≤ u ∧ (turns u).finished n = true

section

variable (limits : Limits) (lookups : Nat → Lookup) (input : Bytes)

/-- The lines come out in their order, whatever order the lookups end in, all of them do, and the last
one as if it had a newline, but for the newline. -/
structure Preserves : Prop where
  order : ∀ turns t, ∃ k, (State.after limits lookups input turns t).out =
    linesWith insertion lookups 0 ((linesOf input).take k)
  whole : ∀ turns t, (State.after limits lookups input turns t).Over →
    (State.after limits lookups input turns t).out = linesWith insertion lookups 0 (linesOf input)
  ends : ∀ turns, Fair turns → ∃ t, (State.after limits lookups input turns t).Over
  alike : input ≠ [] → input.getLast? ≠ some 10 → ∀ turns turns' t t',
    (State.after limits lookups input turns t).Over →
    (State.after limits lookups (input ++ [10]) turns' t').Over →
    (State.after limits lookups (input ++ [10]) turns' t').out =
      (State.after limits lookups input turns t).out ++ [10]

/-- `dns_name_packet` makes something of every packet that comes for a line. -/
def Readable : Prop :=
  ∀ n line, (linesOf input)[n]? = some line → (ip4Scan (word line)).isSome = true →
    ∀ why, lookups n ≠ .started (.packet (.error why))

end

/-! ## Lines with their lookups -/

/-- What the program puts behind the leading word. -/
def inserted : Lookup → Bytes
  | .started (.packet (.error why)) => 61 :: errorText why
  | lookup => insertion lookup

/-- The three searches find the end of the leading word. -/
theorem take_leading (s : Bytes) : s.take (Line.leading s) = word s := by
  have shorter (c : UInt8) (i : Nat) : byteChr c (s.take i) ≤ i := by
    refine Nat.le_trans (byteChr_le c _) ?_
    rw [List.length_take]
    exact Nat.min_le_left _ _
  have cut (c : UInt8) (i : Nat) : s.take (byteChr c (s.take i)) = (s.take i).takeWhile (· ≠ c) := by
    rw [← take_byteChr, List.take_take, Nat.min_eq_left (shorter c i)]
  unfold Line.leading
  simp only []
  rw [cut, cut, take_byteChr, List.takeWhile_takeWhile, List.takeWhile_takeWhile]
  unfold word
  congr 1
  funext b
  simp only [ne_eq, decide_eq_true_eq, decide_eq_decide]
  constructor
  · exact fun h => ⟨h.2, h.1.2, h.1.1⟩
  · exact fun h => ⟨⟨h.2.2, h.2.1⟩, h.1⟩

theorem leading_eq (s : Bytes) : Line.leading s = (word s).length := by
  have within : Line.leading s ≤ s.length := by
    unfold Line.leading
    simp only []
    refine Nat.le_trans (byteChr_le 32 _) ?_
    rw [List.length_take]
    exact Nat.min_le_right _ _
  rw [← take_leading, List.length_take, Nat.min_eq_left within]

/-- A newline at the end of a line is not part of its leading word. -/
theorem lineWith_newline (ins : Lookup → Bytes) (lookup : Lookup) {line : Bytes} :
    lineWith ins lookup (line ++ [10]) = lineWith ins lookup line ++ [10] := by
  have same : word (line ++ [10]) = word line := by
    unfold word
    rw [List.takeWhile_append]
    split
    · rename_i whole
      rw [List.takeWhile_cons_of_neg (by decide), List.append_nil]
      exact (List.takeWhile_prefix _).eq_of_length whole |>.symm
    · rfl
  have within : (word line).length ≤ line.length := (List.takeWhile_prefix _).length_le
  unfold lineWith
  rw [same, List.drop_append_of_le_length within, List.append_assoc, List.append_assoc,
    List.append_assoc]

theorem linesWith_append (ins : Lookup → Bytes) (lookups : Nat → Lookup) (n : Nat)
    (ls more : List Bytes) :
    linesWith ins lookups n (ls ++ more) =
      linesWith ins lookups n ls ++ linesWith ins lookups (n + ls.length) more := by
  induction ls generalizing n with
  | nil => rfl
  | cons l ls ih =>
    rw [List.cons_append, linesWith, linesWith, ih, List.append_assoc, List.length_cons,
      Nat.add_assoc, Nat.add_comm 1]

/-! ## What is in the array -/

/-- An entry for a line: its lookup is under way, or it holds the line with what the lookup came to. -/
def Served (lookup : Lookup) (line : Bytes) (l : Line) : Prop :=
  if l.flagactive = true then
    l.left = word line ∧ l.middle = [] ∧ l.right = line.drop (word line).length ∧
      (ip4Scan (word line)).isSome = true ∧ lookup = .started l.dt
  else l.left ++ l.middle ++ l.right = lineWith inserted lookup line

theorem finish_inactive (l : Line) : l.finish.flagactive = false := by
  unfold Line.finish
  split <;> rfl

theorem finish_served {lookup : Lookup} {line : Bytes} {l : Line} (served : Served lookup line l)
    (active : l.flagactive = true) : Served lookup line l.finish := by
  unfold Served at served
  rw [if_pos active] at served
  obtain ⟨left, -, right, address, rfl⟩ := served
  unfold Served lineWith
  rw [if_neg (by rw [finish_inactive]; decide), if_pos address, ← right, ← left]
  unfold Line.finish
  cases hdt : l.dt with
  | failed why => rfl
  | packet answer =>
    cases answer with
    | error why =>
      show l.left ++ [61] ++ errorText why ++ l.right = l.left ++ 61 :: errorText why ++ l.right
      rw [List.append_assoc l.left]
      rfl
    | ok name =>
      by_cases nameless : name = []
      · rw [nameless]
        rfl
      · simp only [ne_eq, nameless, not_false_eq_true, if_true]
        show l.left ++ [61] ++ name ++ l.right = l.left ++ nameText name ++ l.right
        unfold nameText
        rw [if_neg nameless, List.append_assoc l.left]
        rfl

theorem fill_served (lookup : Lookup) (line : Bytes) (l : Line) :
    Served lookup line (l.fill line lookup) := by
  unfold Line.fill
  dsimp only
  rw [take_leading, leading_eq]
  by_cases address : (ip4Scan (word line)).isSome = true
  · rw [if_pos address]
    cases lookup with
    | unstarted why =>
      unfold Served lineWith
      rw [if_pos address]
      rfl
    | started got =>
      unfold Served
      rw [if_pos rfl]
      exact ⟨rfl, rfl, rfl, address, rfl⟩
  · rw [if_neg address]
    unfold Served lineWith
    rw [if_neg address]
    rfl

/-- Entries for lines, from number `n` on. -/
inductive Serves (lookups : Nat → Lookup) : Nat → List Line → List Bytes → Prop where
  | nil {n : Nat} : Serves lookups n [] []
  | cons {n : Nat} {l : Line} {ls : List Line} {line : Bytes} {lines : List Bytes} :
      Served (lookups n) line l → Serves lookups (n + 1) ls lines →
      Serves lookups n (l :: ls) (line :: lines)

theorem Serves.length {lookups : Nat → Lookup} {n : Nat} {ls : List Line} {lines : List Bytes}
    (serves : Serves lookups n ls lines) : ls.length = lines.length := by
  induction serves with
  | nil => rfl
  | cons _ _ ih => rw [List.length_cons, List.length_cons, ih]

theorem Serves.concat {lookups : Nat → Lookup} {n : Nat} {ls : List Line} {lines : List Bytes}
    (serves : Serves lookups n ls lines) {l : Line} {line : Bytes}
    (served : Served (lookups (n + ls.length)) line l) :
    Serves lookups n (ls ++ [l]) (lines ++ [line]) := by
  induction serves with
  | nil => exact .cons served .nil
  | cons first _ ih =>
    rw [List.length_cons, Nat.add_comm _ 1, ← Nat.add_assoc] at served
    exact .cons first (ih served)

/-- The loop over the active lines ends lookups, and counts them. -/
theorem getGo_serves {lookups : Nat → Lookup} (finished : Nat → Bool) {n : Nat} {ls : List Line}
    {lines : List Bytes} (serves : Serves lookups n ls lines) {numactive : Nat} (others : Nat)
    (counted : numactive = others + ls.countP Line.flagactive) :
    Serves lookups n (State.getGo finished n ls numactive).1 lines ∧
      (State.getGo finished n ls numactive).2 =
        others + (State.getGo finished n ls numactive).1.countP Line.flagactive := by
  induction serves generalizing numactive others with
  | nil => exact ⟨.nil, counted⟩
  | @cons n l ls line lines served _ ih =>
    rw [State.getGo]
    by_cases ends : l.flagactive = true ∧ finished n = true
    · rw [if_pos ends]
      rw [List.countP_cons_of_pos ends.1] at counted
      obtain ⟨later, count⟩ := @ih (numactive - 1) others (by omega)
      refine ⟨.cons (finish_served served ends.1) later, ?_⟩
      rw [List.countP_cons_of_neg (by rw [finish_inactive]; decide)]
      exact count
    · rw [if_neg ends]
      by_cases active : l.flagactive = true
      · rw [List.countP_cons_of_pos active] at counted
        obtain ⟨later, count⟩ := @ih numactive (others + 1) (by omega)
        refine ⟨.cons served later, count.trans ?_⟩
        show _ = others + (l :: (State.getGo finished (n + 1) ls numactive).1).countP Line.flagactive
        rw [List.countP_cons_of_pos active, Nat.add_assoc, Nat.add_comm 1]
      · rw [List.countP_cons_of_neg active] at counted
        obtain ⟨later, count⟩ := @ih numactive others counted
        refine ⟨.cons served later, ?_⟩
        rw [List.countP_cons_of_neg active]
        exact count

/-! ## Every state -/

section

variable {limits : Limits} {lookups : Nat → Lookup} {input : Bytes}

/-- The lines that were written, those in the array, and those in what is still to be read are the
lines of the input. -/
structure Good (limits : Limits) (lookups : Nat → Lookup) (input : Bytes) (s : State) : Prop where
  size : s.x.length = limits.xmax
  few : s.xnum ≤ limits.xmax
  active : s.numactive = (s.x.take s.xnum).countP Line.flagactive
  clean : 10 ∉ s.begun
  ended : s.flag0 = false → s.rest = []
  lines : ∃ past live, linesOf input = past ++ live ++ linesOf (s.begun ++ (s.inbuf ++ s.rest)) ∧
    past.length = s.shown ∧ s.out = linesWith inserted lookups 0 past ∧
    Serves lookups s.shown (s.x.take s.xnum) live

theorem good_start : Good limits lookups input (State.start limits input) where
  size := List.length_replicate
  few := Nat.zero_le _
  active := rfl
  clean := List.not_mem_nil
  ended := fun h => by cases h
  lines := ⟨[], [], rfl, rfl, rfl, .nil⟩

theorem good_read {s : State} (good : Good limits lookups input s) (ready : Option Nat) :
    Good limits lookups input (s.read ready) := by
  unfold State.read
  split
  · rename_i room
    cases ready with
    | none => exact good
    | some n =>
      dsimp only
      split
      · rename_i nothing
        refine ⟨good.size, good.few, good.active, good.clean, fun _ => ?_, good.lines⟩
        rcases List.take_eq_nil_iff.mp nothing with none | none
        · omega
        · exact none
      · refine ⟨good.size, good.few, good.active, good.clean, fun off => ?_, ?_⟩
        · have off : s.flag0 = false := off
          rw [room.1] at off
          cases off
        · obtain ⟨past, live, lines, h⟩ := good.lines
          refine ⟨past, live, ?_, h⟩
          rw [lines]
          show _ = past ++ live ++ linesOf (s.begun ++ (s.inbuf ++ _ ++ List.drop _ s.rest))
          rw [List.append_assoc s.inbuf, List.length_take, List.take_eq_take_min, List.take_append_drop]
  · exact good

theorem getGo_length (finished : Nat → Bool) (n : Nat) (ls : List Line) (numactive : Nat) :
    (State.getGo finished n ls numactive).1.length = ls.length := by
  induction ls generalizing n numactive with
  | nil => rfl
  | cons l ls ih =>
    rw [State.getGo]
    split
    · rw [List.length_cons, ih, List.length_cons]
    · rw [List.length_cons, ih, List.length_cons]

theorem good_get {s : State} (good : Good limits lookups input s) (finished : Nat → Bool) :
    Good limits lookups input (s.get finished) := by
  obtain ⟨past, live, lines, count, out, serves⟩ := good.lines
  have counted : s.numactive = 0 + (s.x.take s.xnum).countP Line.flagactive := by
    rw [Nat.zero_add]
    exact good.active
  obtain ⟨served, counted⟩ := getGo_serves finished serves 0 counted
  have length := getGo_length finished s.shown (s.x.take s.xnum) s.numactive
  have few := good.few
  have taken : (s.x.take s.xnum).length = s.xnum := by
    rw [List.length_take, good.size, Nat.min_eq_left few]
  have live' : (s.get finished).x.take s.xnum =
      (State.getGo finished s.shown (s.x.take s.xnum) s.numactive).1 := by
    unfold State.get
    exact List.take_left' (length.trans taken)
  refine ⟨?_, few, ?_, good.clean, good.ended, past, live, lines, count, out, ?_⟩
  · unfold State.get
    show ((State.getGo finished s.shown (s.x.take s.xnum) s.numactive).1 ++ _).length = _
    rw [List.length_append, length, taken, List.length_drop, good.size]
    omega
  · show _ = List.countP _ ((s.get finished).x.take s.xnum)
    rw [live', ← Nat.zero_add (List.countP _ _)]
    exact counted
  · show Serves lookups s.shown ((s.get finished).x.take s.xnum) live
    rw [live']
    exact served

theorem good_put {s : State} (good : Good limits lookups input s) {l : Line}
    (first : s.first = some l) : Good limits lookups input (s.put l) := by
  obtain ⟨some, ls, entries, inactive⟩ := State.first_some first
  obtain ⟨past, live, lines, count, out, serves⟩ := good.lines
  have size := good.size
  have few := good.few
  have active := good.active
  rw [entries, List.length_cons] at size
  obtain ⟨n, hn⟩ := Nat.exists_eq_succ_of_ne_zero (Nat.ne_of_gt some)
  rw [entries, hn, Nat.succ_eq_add_one, List.take_succ_cons] at active serves
  have short : (ls.take n).length = n := by
    rw [List.length_take]
    omega
  have turned : (s.put l).x = ls.take n ++ (l :: ls.drop n) := by
    unfold State.put
    dsimp only
    rw [entries, hn, Nat.succ_sub_one, List.drop_succ_cons, List.drop_succ_cons, List.drop_zero,
      List.take_succ_cons, List.take_zero, List.append_assoc, List.singleton_append]
  have left : (s.put l).xnum = n := by
    unfold State.put
    rw [hn]
    rfl
  cases serves with
  | @cons _ _ _ line live served later =>
    refine ⟨?_, ?_, ?_, good.clean, good.ended, past ++ [line], live, ?_, ?_, ?_, ?_⟩
    · rw [turned, List.length_append, List.length_cons, List.length_drop, short]
      omega
    · rw [left]
      omega
    · rw [turned, left, List.take_left' short]
      show s.numactive = _
      rw [active, List.countP_cons_of_neg (by rw [inactive]; decide)]
    · rw [lines]
      simp only [List.append_assoc, List.cons_append]
      rfl
    · rw [List.length_append, count]
      rfl
    · show s.out ++ (l.left ++ l.middle ++ l.right) = _
      unfold Served at served
      rw [inactive, if_neg (by decide)] at served
      rw [linesWith_append, Nat.zero_add, count, ← out, served]
      show _ = s.out ++ (_ ++ [])
      rw [List.append_nil]
    · rw [turned, left, List.take_left' short]
      exact later

/-- A line that is taken goes behind those in the array. -/
theorem good_add {s : State} (size : s.x.length = limits.xmax) (room : s.xnum < limits.xmax)
    (active : s.numactive = (s.x.take s.xnum).countP Line.flagactive)
    (ended : s.flag0 = false → s.rest = []) {past live : List Bytes}
    (lines : linesOf input = past ++ live ++ s.begun :: linesOf (s.inbuf ++ s.rest))
    (count : past.length = s.shown) (out : s.out = linesWith inserted lookups 0 past)
    (serves : Serves lookups s.shown (s.x.take s.xnum) live) :
    Good limits lookups input { s.add lookups with begun := [] } := by
  have inside : s.xnum < s.x.length := by rwa [size]
  have before : (s.x.take s.xnum).length = s.xnum := by
    rw [List.length_take]
    omega
  let l := (s.x[s.xnum]).fill s.begun (lookups (s.shown + s.xnum))
  have filled : (s.add lookups).x = s.x.take s.xnum ++ l :: s.x.drop (s.xnum + 1) := by
    show s.x.modify s.xnum _ = _
    rw [List.modify_eq_take_cons_drop inside]
  have taken : (s.add lookups).x.take (s.xnum + 1) = s.x.take s.xnum ++ [l] := by
    have front := take_front (s.x.take s.xnum) l (s.x.drop (s.xnum + 1))
    rw [before] at front
    rw [filled, front]
  have entry : (s.add lookups).x[s.xnum]? = some l := by
    rw [filled, List.getElem?_append_right (by rw [before]), before, Nat.sub_self]
    rfl
  refine ⟨?_, room, ?_, List.not_mem_nil, ended, past, live ++ [s.begun], ?_, count, out, ?_⟩
  · show (s.add lookups).x.length = _
    rw [filled, List.length_append, List.length_cons, List.length_drop, before]
    omega
  · show (s.add lookups).numactive = ((s.add lookups).x.take (s.xnum + 1)).countP Line.flagactive
    rw [taken, List.countP_append, ← active]
    show (if (s.add lookups).x[s.xnum]?.map Line.flagactive = some true then _ else _) = _
    rw [entry, Option.map_some]
    by_cases started : l.flagactive = true
    · rw [if_pos (by rw [started]), List.countP_cons_of_pos started]
      rfl
    · rw [if_neg fun h => started (Option.some_inj.mp h), List.countP_cons_of_neg started]
      rfl
  · rw [lines, List.append_assoc past, List.append_assoc past, List.append_assoc live]
    rfl
  · show Serves lookups s.shown ((s.add lookups).x.take (s.xnum + 1)) _
    rw [taken]
    refine serves.concat ?_
    rw [before]
    exact fill_served _ _ _

theorem good_step {s s' : State} (good : Good limits lookups input s)
    (h : s.step limits lookups = some s') : Good limits lookups input s' := by
  obtain ⟨l, first, rfl⟩ | ⟨-, ⟨room, -⟩, h⟩ := State.step_cases h
  · exact good_put good first
  · obtain ⟨past, live, lines, count, out, serves⟩ := good.lines
    obtain ⟨-, unended, rfl⟩ | ⟨front, back, cut, clean, rfl⟩ | ⟨empty, off, some, rfl⟩ := h
    · refine ⟨good.size, good.few, good.active, ?_, good.ended, past, live, ?_, count, out, serves⟩
      · intro newline
        rcases List.mem_append.mp newline with newline | newline
        · exact good.clean newline
        · exact unended newline
      · rw [lines]
        show _ = past ++ live ++ linesOf (s.begun ++ s.inbuf ++ ([] ++ s.rest))
        rw [List.nil_append, List.append_assoc s.begun]
    · have unended : 10 ∉ s.begun ++ front := by
        intro newline
        rcases List.mem_append.mp newline with newline | newline
        · exact good.clean newline
        · exact clean newline
      refine good_add good.size room good.active good.ended ?_ count out serves
      rw [lines, cut, List.append_assoc front, List.cons_append, ← List.append_assoc s.begun,
        linesOf_append unended]
    · refine good_add good.size room good.active good.ended ?_ count out serves
      rw [lines, empty, good.ended off, List.append_nil, List.append_nil,
        linesOf_clean some good.clean]
      rfl

/-- What every round of the inner loop keeps, the loop keeps, and it ends where it breaks. -/
theorem settle_rule {P : State → Prop} {s : State} (start : P s)
    (keep : ∀ s s', P s → s.step limits lookups = some s' → P s') :
    P (s.settle limits lookups) ∧ (s.settle limits lookups).step limits lookups = none := by
  induction hsize : s.weight using Nat.strongRecOn generalizing s with
  | ind size ih =>
    rw [State.settle]
    split
    · rename_i breaks
      exact ⟨start, breaks⟩
    · rename_i s' next
      have smaller := State.step_smaller next
      exact ih s'.weight (by omega) (keep s s' start next) rfl

theorem good_turn {s : State} (good : Good limits lookups input s) (t : Turn) :
    Good limits lookups input (s.turn limits lookups t) :=
  (settle_rule (good_get (good_read good t.ready) t.finished) fun _ _ => good_step).1

theorem good_after (turns : Nat → Turn) (t : Nat) :
    Good limits lookups input (State.after limits lookups input turns t) := by
  induction t with
  | zero => exact good_start
  | succ t ih =>
    rw [State.after]
    split
    · exact ih
    · exact good_turn ih _

theorem Good.shown_le {s : State} (good : Good limits lookups input s) :
    s.shown ≤ (linesOf input).length := by
  obtain ⟨past, live, lines, count, -⟩ := good.lines
  rw [lines, ← count, List.append_assoc, List.length_append]
  exact Nat.le_add_right _ _

/-- What was written are the first lines. -/
theorem Good.out_eq {s : State} (good : Good limits lookups input s) :
    s.out = linesWith inserted lookups 0 ((linesOf input).take s.shown) := by
  obtain ⟨past, live, lines, count, out, -⟩ := good.lines
  rw [out, lines, List.append_assoc, ← count, List.take_left]

/-- **What was written at the end are all lines.** -/
theorem Good.out_whole {s : State} (good : Good limits lookups input s) (done : s.Over) :
    s.out = linesWith inserted lookups 0 (linesOf input) := by
  obtain ⟨off, empty, nothing, none⟩ := done
  obtain ⟨past, live, lines, count, out, serves⟩ := good.lines
  rw [none, List.take_zero] at serves
  cases serves
  rw [out, lines, nothing, empty, good.ended off, List.append_nil]
  show _ = linesWith inserted lookups 0 (past ++ [])
  rw [List.append_nil]

/-! ## No line is kept for ever -/

/-- What no step takes back. -/
structure Onward (s s' : State) : Prop where
  shown : s.shown ≤ s'.shown
  taken : s.shown + s.xnum ≤ s'.shown + s'.xnum
  rest : s'.rest.length ≤ s.rest.length
  flag0 : s'.flag0 = true → s.flag0 = true

theorem Onward.refl (s : State) : Onward s s :=
  ⟨Nat.le_refl _, Nat.le_refl _, Nat.le_refl _, fun h => h⟩

theorem Onward.trans {s s' s'' : State} (first : Onward s s') (second : Onward s' s'') :
    Onward s s'' :=
  ⟨Nat.le_trans first.shown second.shown, Nat.le_trans first.taken second.taken,
    Nat.le_trans second.rest first.rest, fun h => first.flag0 (second.flag0 h)⟩

theorem onward_read (ready : Option Nat) (s : State) : Onward s (s.read ready) := by
  unfold State.read
  split
  · rename_i room
    cases ready with
    | none => exact Onward.refl s
    | some n =>
      dsimp only
      split
      · exact ⟨Nat.le_refl _, Nat.le_refl _, Nat.le_refl _, fun h => by cases h⟩
      · refine ⟨Nat.le_refl _, Nat.le_refl _, ?_, fun h => h⟩
        show (s.rest.drop _).length ≤ s.rest.length
        rw [List.length_drop]
        exact Nat.sub_le _ _
  · exact Onward.refl s

theorem onward_get (finished : Nat → Bool) (s : State) : Onward s (s.get finished) :=
  ⟨Nat.le_refl _, Nat.le_refl _, Nat.le_refl _, fun h => h⟩

theorem onward_step {s s' : State} (h : s.step limits lookups = some s') : Onward s s' := by
  obtain ⟨l, first, rfl⟩ | ⟨-, -, h⟩ := State.step_cases h
  · have some := (State.first_some first).1
    refine ⟨Nat.le_succ _, ?_, Nat.le_refl _, fun h => h⟩
    show s.shown + s.xnum ≤ s.shown + 1 + (s.xnum - 1)
    omega
  · obtain ⟨-, -, rfl⟩ | ⟨front, back, -, -, rfl⟩ | ⟨-, -, -, rfl⟩ := h
    · exact ⟨Nat.le_refl _, Nat.le_refl _, Nat.le_refl _, fun h => h⟩
    · exact ⟨Nat.le_refl _, Nat.le_succ _, Nat.le_refl _, fun h => h⟩
    · exact ⟨Nat.le_refl _, Nat.le_succ _, Nat.le_refl _, fun h => h⟩

theorem onward_settle (s : State) : Onward s (s.settle limits lookups) :=
  (settle_rule (Onward.refl s) fun _ _ first next => first.trans (onward_step next)).1

theorem onward_turn (t : Turn) (s : State) : Onward s (s.turn limits lookups t) :=
  ((onward_read t.ready s).trans (onward_get t.finished _)).trans (onward_settle _)

variable {turns : Nat → Turn}

theorem onward_after {t u : Nat} (later : t ≤ u) : Onward
    (State.after limits lookups input turns t) (State.after limits lookups input turns u) := by
  induction later with
  | refl => exact Onward.refl _
  | step _ ih =>
    refine ih.trans ?_
    rw [State.after]
    split
    · exact Onward.refl _
    · exact onward_turn _ _

/-- Where the inner loop breaks, the first line waits for its lookup, or there is no room, or there is
nothing that could be taken. -/
theorem step_none {s : State} (h : s.step limits lookups = none) :
    s.first = none ∧ (s.xnum < limits.xmax ∧ s.numactive < limits.maxactive →
      s.inbuf = [] ∧ (s.flag0 = true ∨ s.begun = [])) := by
  unfold State.step at h
  cases hfirst : s.first with
  | some l =>
    rw [hfirst] at h
    cases h
  | none =>
    rw [hfirst] at h
    dsimp only at h
    refine ⟨rfl, fun room => ?_⟩
    rw [if_pos room] at h
    by_cases whole : s.inbuf ≠ [] ∧ byteChr 10 s.inbuf = s.inbuf.length
    · rw [if_pos whole] at h
      cases h
    · rw [if_neg whole] at h
      by_cases line : byteChr 10 s.inbuf < s.inbuf.length ∨ s.flag0 = false ∧ s.begun ≠ []
      · rw [if_pos line] at h
        cases h
      · have within := byteChr_le 10 s.inbuf
        have empty : s.inbuf = [] := by
          by_contra some
          exact line (.inl (Nat.lt_of_le_of_ne within fun same => whole ⟨some, same⟩))
        refine ⟨empty, ?_⟩
        cases off : s.flag0 with
        | true => exact .inl rfl
        | false => exact .inr (Decidable.not_not.mp fun some => line (.inr ⟨off, some⟩))

/-- Between the rounds of the main loop, the inner loop has come to its end. -/
theorem after_quiet (t : Nat) :
    (State.after limits lookups input turns t).step limits lookups = none := by
  induction t with
  | zero =>
    have room : 0 < limits.xmax ∧ 0 < limits.maxactive := ⟨limits.lines.1, limits.concurrency.1⟩
    show (State.start limits input).step limits lookups = none
    unfold State.step
    show (if 0 < limits.xmax ∧ 0 < limits.maxactive then _ else none) = none
    rw [if_pos room]
    rfl
  | succ t ih =>
    rw [State.after]
    split
    · exact ih
    · exact (settle_rule (P := fun _ => True) trivial fun _ _ _ _ => trivial).2

/-- A first line whose lookup has ended is written. -/
theorem settle_shown {s : State} {l : Line} (first : s.first = some l) :
    s.shown < (s.settle limits lookups).shown := by
  have next : s.step limits lookups = some (s.put l) := by
    unfold State.step
    rw [first]
  rw [State.settle]
  split
  · rename_i breaks
    rw [next] at breaks
    cases breaks
  · rename_i s' next'
    rw [next] at next'
    cases next'
    exact (onward_settle (s.put l)).shown

theorem turn_shown {s : State} (good : Good limits lookups input s)
    (quiet : s.step limits lookups = none) (some : 0 < s.xnum) {t : Turn}
    (ends : t.finished s.shown = true) : s.shown < (s.turn limits lookups t).shown := by
  have more := Nat.lt_of_lt_of_le some good.few
  obtain ⟨l, ls, entries⟩ : ∃ l ls, s.x = l :: ls := by
    apply List.exists_cons_of_length_pos
    rw [good.size]
    exact more
  have active : l.flagactive = true := by
    have waits := (step_none quiet).1
    unfold State.first at waits
    rw [if_pos some, entries, List.head?_cons] at waits
    cases hactive : l.flagactive with
    | true => rfl
    | false =>
      rw [Option.filter_some, hactive] at waits
      cases waits
  have same : (s.read t.ready).x = s.x ∧ (s.read t.ready).xnum = s.xnum ∧
      (s.read t.ready).shown = s.shown := by
    unfold State.read
    split
    · cases t.ready with
      | none => exact ⟨rfl, rfl, rfl⟩
      | some n =>
        dsimp only
        split
        · exact ⟨rfl, rfl, rfl⟩
        · exact ⟨rfl, rfl, rfl⟩
    · exact ⟨rfl, rfl, rfl⟩
  obtain ⟨n, hn⟩ := Nat.exists_eq_succ_of_ne_zero (Nat.ne_of_gt some)
  have first : ((s.read t.ready).get t.finished).first = Option.some l.finish := by
    unfold State.first
    rw [if_pos (by show 0 < (s.read t.ready).xnum; rw [same.2.1]; exact some)]
    unfold State.get
    dsimp only
    rw [same.1, same.2.1, same.2.2, entries, hn, List.take_succ_cons, State.getGo,
      if_pos ⟨active, ends⟩]
    show Option.filter _ (Option.some l.finish) = _
    rw [Option.filter_some, finish_inactive]
    rfl
  have before : s.shown = ((s.read t.ready).get t.finished).shown := same.2.2.symm
  rw [before]
  exact settle_shown first

/-- Where there is no line in the array and the input has not ended, something is read. -/
theorem turn_reads {s : State} (quiet : s.step limits lookups = none) (none : s.numactive = 0)
    (empty : s.xnum = 0) (on : s.flag0 = true) {t : Turn} (ready : t.ready ≠ .none) :
    (s.turn limits lookups t).rest.length < s.rest.length ∨
      (s.turn limits lookups t).flag0 = false := by
  have inbuf : s.inbuf = [] := by
    refine ((step_none quiet).2 ⟨?_, ?_⟩).1
    · rw [empty]
      exact limits.lines.1
    · rw [none]
      exact limits.concurrency.1
  have later := (onward_get t.finished (s.read t.ready)).trans
    (@onward_settle limits lookups ((s.read t.ready).get t.finished))
  obtain ⟨n, hn⟩ := Option.ne_none_iff_exists'.mp ready
  have room : s.inbuf.length < 1024 := by
    rw [inbuf]
    decide
  have reads : (s.read t.ready).rest.length < s.rest.length ∨ (s.read t.ready).flag0 = false := by
    unfold State.read
    rw [if_pos ⟨on, room⟩, hn]
    dsimp only
    split
    · exact .inr rfl
    · rename_i more
      have some := List.length_pos_iff.mpr more
      rw [List.length_take] at some
      refine .inl ?_
      show (s.rest.drop _).length < s.rest.length
      rw [List.length_drop, List.length_take]
      omega
  rcases reads with reads | off
  · exact .inl (Nat.lt_of_le_of_lt later.rest reads)
  · refine .inr ?_
    cases still : (s.turn limits lookups t).flag0 with
    | false => rfl
    | true =>
      have before := later.flag0 still
      rw [off] at before
      cases before

/-- What is left to be done: lines to be written, octets to be read, and the end to be seen. -/
def left (input : Bytes) (s : State) : Nat :=
  (linesOf input).length - s.shown + s.rest.length + s.flag0.toNat

theorem Onward.left_le {s s' : State} (onward : Onward s s') : left input s' ≤ left input s := by
  have shown := onward.shown
  have rest := onward.rest
  have flag : s'.flag0.toNat ≤ s.flag0.toNat := by
    cases on : s'.flag0 with
    | false => exact Nat.zero_le _
    | true => rw [onward.flag0 on]
  unfold left
  omega

theorem Onward.left_lt {s s' : State} (onward : Onward s s')
    (within : s'.shown ≤ (linesOf input).length)
    (less : s.shown < s'.shown ∨ s'.rest.length < s.rest.length ∨
      s.flag0 = true ∧ s'.flag0 = false) : left input s' < left input s := by
  have shown := onward.shown
  have rest := onward.rest
  have flag : s'.flag0.toNat ≤ s.flag0.toNat := by
    cases on : s'.flag0 with
    | false => exact Nat.zero_le _
    | true => rw [onward.flag0 on]
  unfold left
  rcases less with less | less | ⟨on, off⟩
  · omega
  · omega
  · rw [on, off]
    show _ + _ + 0 < _ + _ + 1
    omega

theorem after_succ {t : Nat} (going : ¬ (State.after limits lookups input turns t).Over) :
    State.after limits lookups input turns (t + 1) =
      (State.after limits lookups input turns t).turn limits lookups (turns t) := by
  rw [State.after]
  exact if_neg going

/-- The first line in the array is written some time. -/
theorem line_progress (fair : Fair turns) {t : Nat}
    (some : 0 < (State.after limits lookups input turns t).xnum) :
    ∃ u, left input (State.after limits lookups input turns u) <
      left input (State.after limits lookups input turns t) := by
  obtain ⟨u, later, ends⟩ := fair.ends t (State.after limits lookups input turns t).shown
  have onward := @onward_after limits lookups input turns t u later
  have good := @good_after limits lookups input turns u
  by_cases written : (State.after limits lookups input turns t).shown <
      (State.after limits lookups input turns u).shown
  · exact ⟨u, onward.left_lt good.shown_le (.inl written)⟩
  · have same := onward.shown
    have taken := onward.taken
    have still : 0 < (State.after limits lookups input turns u).xnum := by omega
    have number : (State.after limits lookups input turns t).shown =
        (State.after limits lookups input turns u).shown := by omega
    have going : ¬ (State.after limits lookups input turns u).Over := by
      intro done
      rw [done.2.2.2] at still
      exact Nat.lt_irrefl 0 still
    rw [number] at ends
    have written := turn_shown good (after_quiet u) still ends
    rw [← after_succ going] at written
    have next := @good_after limits lookups input turns (u + 1)
    have all := onward.trans (@onward_after limits lookups input turns u (u + 1) (Nat.le_succ u))
    exact ⟨u + 1, all.left_lt next.shown_le (.inl (Nat.lt_of_le_of_lt same written))⟩

/-- Something is done some time, unless all is. -/
theorem after_progress (fair : Fair turns) (t : Nat)
    (going : ¬ (State.after limits lookups input turns t).Over) :
    ∃ u, left input (State.after limits lookups input turns u) <
      left input (State.after limits lookups input turns t) := by
  by_cases some : 0 < (State.after limits lookups input turns t).xnum
  · exact line_progress fair some
  have idle (u : Nat) (empty : (State.after limits lookups input turns u).xnum = 0) :
      (State.after limits lookups input turns u).numactive = 0 := by
    rw [(good_after turns u).active, empty]
    rfl
  have on (u : Nat) (going : ¬ (State.after limits lookups input turns u).Over)
      (empty : (State.after limits lookups input turns u).xnum = 0) :
      (State.after limits lookups input turns u).flag0 = true := by
    have room : (State.after limits lookups input turns u).xnum < limits.xmax ∧
        (State.after limits lookups input turns u).numactive < limits.maxactive := by
      rw [empty, idle u empty]
      exact ⟨limits.lines.1, limits.concurrency.1⟩
    obtain ⟨inbuf, flag⟩ := (step_none (after_quiet u)).2 room
    cases off : (State.after limits lookups input turns u).flag0 with
    | true => rfl
    | false =>
      rw [off] at flag
      exact absurd ⟨off, inbuf, flag.resolve_left (by decide), empty⟩ going
  have empty : (State.after limits lookups input turns t).xnum = 0 := by omega
  obtain ⟨u, later, ready⟩ := fair.reads t
  have onward := @onward_after limits lookups input turns t u later
  by_cases done : (State.after limits lookups input turns u).Over
  · exact ⟨u, onward.left_lt (good_after turns u).shown_le (.inr (.inr ⟨on t going empty, done.1⟩))⟩
  by_cases some' : 0 < (State.after limits lookups input turns u).xnum
  · obtain ⟨v, less⟩ := line_progress fair some'
    exact ⟨v, Nat.lt_of_lt_of_le less onward.left_le⟩
  · have empty' : (State.after limits lookups input turns u).xnum = 0 := by omega
    have reads := turn_reads (after_quiet u) (idle u empty') empty' (on u done empty') ready
    rw [← after_succ done] at reads
    have next := @onward_after limits lookups input turns u (u + 1) (Nat.le_succ u)
    have less := next.left_lt (good_after turns (u + 1)).shown_le
      (.inr (reads.imp_right fun off => ⟨on u done empty', off⟩))
    exact ⟨u + 1, Nat.lt_of_lt_of_le less onward.left_le⟩

/-- **The program ends**, if there is always more to read or the end, and no lookup takes for ever. -/
theorem after_ends (fair : Fair turns) :
    ∃ t, (State.after limits lookups input turns t).Over :=
  Run.eventually (fun t => left input (State.after limits lookups input turns t))
    (after_progress fair) 0

end

/-! ## Both insertions -/

section

variable {limits : Limits} {lookups : Nat → Lookup} {input : Bytes}

theorem inserted_eq {lookup : Lookup} (readable : ∀ why, lookup ≠ .started (.packet (.error why))) :
    inserted lookup = insertion lookup := by
  match lookup with
  | .unstarted _ => rfl
  | .started (.failed _) => rfl
  | .started (.packet (.ok _)) => rfl
  | .started (.packet (.error why)) => exact absurd rfl (readable why)

/-- Where all packets can be read, it is the promised one. -/
theorem linesWith_inserted {n : Nat} {ls : List Bytes}
    (readable : ∀ (i : Nat) (line : Bytes), ls[i]? = some line →
      (ip4Scan (word line)).isSome = true → ∀ why, lookups (n + i) ≠ .started (.packet (.error why))) :
    linesWith inserted lookups n ls = linesWith insertion lookups n ls := by
  induction ls generalizing n with
  | nil => rfl
  | cons l ls ih =>
    have later := @ih (n + 1) fun i line there address why => by
      rw [Nat.add_assoc, Nat.add_comm 1]
      exact readable (i + 1) line there address why
    have here : lineWith inserted (lookups n) l = lineWith insertion (lookups n) l := by
      unfold lineWith
      by_cases address : (ip4Scan (word l)).isSome = true
      · have same : inserted (lookups n) = insertion (lookups n) :=
          inserted_eq (readable 0 l rfl address)
        rw [if_pos address, if_pos address, same]
      · rw [if_neg address, if_neg address]
    rw [linesWith, linesWith, here, later]

/-- The other one is longer, by an equals sign for each packet that cannot be read. -/
theorem lineWith_length (lookup : Lookup) (line : Bytes) :
    (lineWith insertion lookup line).length ≤ (lineWith inserted lookup line).length ∧
      ((lineWith inserted lookup line).length = (lineWith insertion lookup line).length →
        (ip4Scan (word line)).isSome = true → ∀ why, lookup ≠ .started (.packet (.error why))) := by
  have longer : (insertion lookup).length ≤ (inserted lookup).length := by
    match lookup with
    | .unstarted _ => exact Nat.le_refl _
    | .started (.failed _) => exact Nat.le_refl _
    | .started (.packet (.ok _)) => exact Nat.le_refl _
    | .started (.packet (.error _)) => exact Nat.le_succ _
  unfold lineWith
  simp only [List.length_append]
  by_cases address : (ip4Scan (word line)).isSome = true
  · rw [if_pos address, if_pos address]
    refine ⟨by omega, fun same _ why unreadable => ?_⟩
    rw [unreadable] at same
    change _ + ((errorText why).length + 1) + _ = _ + (errorText why).length + _ at same
    omega
  · rw [if_neg address, if_neg address]
    exact ⟨Nat.le_refl _, fun _ h => absurd h address⟩

theorem linesWith_readable {n : Nat} {ls : List Bytes} :
    (linesWith insertion lookups n ls).length ≤ (linesWith inserted lookups n ls).length ∧
      ((linesWith inserted lookups n ls).length = (linesWith insertion lookups n ls).length →
        ∀ (i : Nat) (line : Bytes), ls[i]? = some line → (ip4Scan (word line)).isSome = true →
          ∀ why, lookups (n + i) ≠ .started (.packet (.error why))) := by
  induction ls generalizing n with
  | nil => exact ⟨Nat.le_refl _, fun _ _ _ h => (nomatch h)⟩
  | cons l ls ih =>
    obtain ⟨shorter, readable⟩ := lineWith_length (lookups n) l
    obtain ⟨shorter', readable'⟩ := @ih (n + 1)
    rw [linesWith, linesWith, List.length_append, List.length_append]
    refine ⟨by omega, fun same i line there address why => ?_⟩
    cases i with
    | zero =>
      cases there
      exact readable (by omega) address why
    | succ i =>
      rw [Nat.add_comm i, ← Nat.add_assoc]
      exact readable' (by omega) i line there address why

/-- A line is written alike with and without its newline. -/
theorem linesWith_newline (ins : Lookup → Bytes) {s : Bytes} (more : s ≠ [])
    (missing : s.getLast? ≠ some 10) :
    linesWith ins lookups 0 (linesOf (s ++ [10])) = linesWith ins lookups 0 (linesOf s) ++ [10] := by
  obtain ⟨front, last, lines, -, ended⟩ := linesOf_newline more missing
  rw [lines, ended, linesWith_append, linesWith_append]
  simp only [linesWith, lineWith_newline, List.append_nil, List.append_assoc]

/-- Everything is ready in every round. -/
def prompt (_ : Nat) : Turn := ⟨some 0, fun _ => true⟩

theorem prompt_fair : Fair prompt :=
  ⟨fun t => ⟨t, Nat.le_refl t, fun h => by cases h⟩, fun t _ => ⟨t, Nat.le_refl t, rfl⟩⟩

/-- **dnsfilter keeps its lines**, in order and whole, with what was found for them: exactly where every
packet that comes for a line can be read. -/
theorem preserves_iff (limits : Limits) (lookups : Nat → Lookup) (input : Bytes) :
    Preserves limits lookups input ↔ Readable lookups input := by
  constructor
  · intro kept n line there address why
    obtain ⟨t, done⟩ := kept.ends prompt prompt_fair
    have whole := kept.whole prompt t done
    rw [(good_after prompt t).out_whole done] at whole
    have readable := (@linesWith_readable lookups 0 (linesOf input)).2 (congrArg List.length whole)
      n line there address why
    rwa [Nat.zero_add] at readable
  · intro readable
    have all : linesWith inserted lookups 0 (linesOf input) =
        linesWith insertion lookups 0 (linesOf input) := by
      refine linesWith_inserted fun i line there address why => ?_
      rw [Nat.zero_add]
      exact readable i line there address why
    constructor
    · intro turns t
      have good := @good_after limits lookups input turns t
      refine ⟨_, good.out_eq.trans (linesWith_inserted fun i line there address why => ?_)⟩
      rw [Nat.zero_add]
      refine readable i line ?_ address why
      rw [List.getElem?_take] at there
      split at there
      · exact there
      · cases there
    · intro turns t done
      rw [(good_after turns t).out_whole done, all]
    · exact fun turns fair => after_ends fair
    · intro more missing turns turns' t t' done done'
      rw [(good_after turns t).out_whole done, (good_after turns' t').out_whole done',
        linesWith_newline inserted more missing]

end

def single : Limits := ⟨1, 1, by decide, by decide⟩

/-- One line, and a packet for it that ends too early. -/
def cutShort : Nat → Lookup := fun _ => .started (.packet (.error (ascii "protocol error")))

/-- The error of a packet that cannot be read stands behind an equals sign. -/
theorem preserves_broken :
    ¬ ∀ (limits : Limits) (lookups : Nat → Lookup) (input : Bytes),
      Preserves limits lookups input := by
  intro all
  let turns : Nat → Turn := fun _ => ⟨some 1023, fun _ => true⟩
  have kept := all single cutShort (ascii "10.0.0.1 up\n")
  have done : (State.after single cutShort (ascii "10.0.0.1 up\n") turns 2).Over := by decide +kernel
  have text : (State.after single cutShort (ascii "10.0.0.1 up\n") turns 2).out =
      ascii "10.0.0.1=:protocol-error up\n" := by decide +kernel
  have promised : linesWith insertion cutShort 0 (linesOf (ascii "10.0.0.1 up\n")) =
      ascii "10.0.0.1:protocol-error up\n" := by decide +kernel
  have whole := kept.whole turns 2 done
  rw [text, promised] at whole
  exact absurd whole (by decide +kernel)

end TinyDnssec.Dnsfilter
