import EventServer.Client.Parser
import EventServer.Server.Session

/-
  The command loop of the client's `main`.

  `nextDirective` is what one iteration reads and decides to do, `commands` is the whole loop
  on a job file, and `requests` are the calls it makes. What the server answers has no influence
  on them. `commands_cons` unfolds one iteration; `Reaches` are the places in the file where
  iterations start.
-/

namespace EventServer.Client

open Lib

/-- What an iteration does with what it has read. -/
inductive Directive where
  | call (c : Call)
  | wait (delay : UInt32)
  | help
  | empty
  | invalid
  | eoc
  deriving DecidableEq, Repr

/-- `f` with another result. -/
def Format.map {α β : Type} (g : α → β) : Format α → Format β
  | .done a => .done (g a)
  | .reject a => .reject (g a)
  | .uint ends failed next => .uint ends (g ∘ failed) fun v ch => (next v ch).map g
  | .char ok failed next => .char ok (g failed) fun ch => (next ch).map g

def createDirective : Option (UInt32 × UInt64 × UInt64) → Directive
  | none => .invalid
  | some (event_id, num_rows, num_columns) => .call (.emsCreate event_id num_rows num_columns)

def reserveDirective : Nat × Reservation → Directive
  | (num_coords, r) =>
    if num_coords = 0 then .invalid
    -- the id has been stored
    else .call (.emsReserve (r.event_id.getD 0) ⟨.ofNat num_coords, r.xs, r.ys⟩)

def showDirective : Option UInt32 → Directive
  | none => .invalid
  | some event_id => .call (.emsShow event_id)

/-- `delay` is 0 before. -/
def waitDirective : Int32 × Option UInt32 × Option UInt32 → Directive
  | (ret, delay, _) => if ret = -1 then .invalid else .wait (delay.getD 0)

/-- The cases of the switch: what is still read for the command. -/
def operands : Command → Format Directive
  | .cmdCreate => parseCreate.map createDirective
  | .cmdReserve => (parseReserve MAX_RESERVATION_SIZE).map reserveDirective
  | .cmdShow => parseShow.map showDirective
  | .cmdListEvents => .done (.call .emsListEvents)
  | .cmdWait => (parseWait false).map waitDirective
  | .cmdInvalid => .done .invalid
  | .cmdHelp => .done .help
  | .cmdEmpty => .done .empty
  | .eoc => .done .eoc

/-- One iteration of the loop, up to the call. -/
def nextDirective (stack : Stack) : Scan Directive := do (operands (← getNext)).run stack

/-- The loop; `fuel` bounds the number of iterations. -/
def commandLoop (stack : Stack) : Nat → Scan (List Directive)
  | 0 => throw .diverges
  | fuel + 1 => do
    match ← nextDirective stack with
    | .eoc => return []
    | d => return d :: (← commandLoop stack fuel)

/-- An iteration with `num` for `parse_uint`. -/
def nextDirectiveWith (num : Scan (Option UInt32 × UInt8)) : Scan Directive := do
  (operands (← getNext)).runWith num

/-- The loop with `num` for `parse_uint`. -/
def commandLoopWith (num : Scan (Option UInt32 × UInt8)) : Nat → Scan (List Directive)
  | 0 => throw .diverges
  | fuel + 1 => do
    match ← nextDirectiveWith num with
    | .eoc => return []
    | d => return d :: (← commandLoopWith num fuel)

theorem nextDirectiveWith_eq (stack : Stack) :
    nextDirectiveWith (parseUint stack) = nextDirective stack := by
  simp only [nextDirectiveWith, nextDirective, Format.runWith_eq]

theorem commandLoopWith_eq (stack : Stack) : ∀ fuel : Nat,
    commandLoopWith (parseUint stack) fuel = commandLoop stack fuel
  | 0 => rfl
  | fuel + 1 => by
      rw [commandLoopWith, commandLoop]
      simp only [nextDirectiveWith_eq, commandLoopWith_eq stack fuel]

/-- What the loop does with a job file, and what it leaves of the file. -/
def commands (stack : Stack) (file : Bytes) : Except Stop (List Directive × Bytes) :=
  (commandLoop stack (file.length + 1)).run file

def Directive.calls : Directive → List Call
  | .call c => [c]
  | _ => []

/-- The requests that the loop issues for a job file. -/
def requests (stack : Stack) (file : Bytes) : Except Stop (List Call) :=
  (commands stack file).map fun r => r.1.flatMap Directive.calls

/-- An iteration starts at `rest` when the loop reads `file`. -/
inductive Reaches (stack : Stack) : Bytes → Bytes → Prop
  | refl (file : Bytes) : Reaches stack file file
  | step {file rest rest' : Bytes} {d : Directive}
    (hnext : (nextDirective stack).run file = .ok (d, rest)) (hd : d ≠ .eoc)
    (h : Reaches stack rest rest') : Reaches stack file rest'

/-! ## One iteration -/

theorem Format.runWith_map {α β : Type} (g : α → β) (num : Scan (Option UInt32 × UInt8))
    (f : Format α) (bs : Bytes) :
    ((f.map g).runWith num).run bs = ((f.runWith num).run bs).map fun r => (g r.1, r.2) := by
  induction f generalizing bs with
  | done a => rfl
  | reject a => rfl
  | uint ends failed next ih =>
    rw [Format.map, runWith_uint, runWith_uint]
    rcases num.run bs with e | ⟨⟨_ | v, ch⟩, rest⟩
    · rfl
    · rfl
    · by_cases hin : ch ∈ ends
      · simp only [hin, if_true, ih]
      · simp only [hin, if_false]
        rfl
  | char ok failed next ih =>
    rw [Format.map]
    cases bs with
    | nil => rw [runWith_char_nil, runWith_char_nil]; rfl
    | cons ch rest =>
      rw [runWith_char_cons, runWith_char_cons]
      by_cases hin : ch ∈ ok
      · simp only [hin, if_true, ih]
      · simp only [hin, if_false]
        rfl

theorem Format.run_map {α β : Type} (g : α → β) (stack : Stack) (f : Format α) (bs : Bytes) :
    ((f.map g).run stack).run bs = ((f.run stack).run bs).map fun r => (g r.1, r.2) := by
  rw [← runWith_eq, ← runWith_eq, runWith_map]

theorem Format.run_suffix {α : Type} {stack : Stack} {f : Format α} {bs rest : Bytes} {a : α}
    (h : (f.run stack).run bs = .ok (a, rest)) : rest <:+ bs := by
  induction f generalizing bs with
  | done a' =>
    cases h
    exact List.suffix_refl _
  | reject a' =>
    cases h
    exact skipLine_suffix bs
  | uint ends failed next ih =>
    rw [run_uint] at h
    rcases hparse : (parseUint stack).run bs with e | ⟨⟨_ | v, ch⟩, rest'⟩ <;>
      rw [hparse] at h
    · cases h
    · cases h
      exact (skipLine_suffix rest').trans (parseUint_suffix hparse)
    · by_cases hin : ch ∈ ends
      · simp only [hin, if_true] at h
        exact (ih v ch h).trans (parseUint_suffix hparse)
      · simp only [hin, if_false] at h
        cases h
        exact (skipLine_suffix rest').trans (parseUint_suffix hparse)
  | char ok failed next ih =>
    cases bs with
    | nil =>
      rw [run_char_nil] at h
      cases h
      exact List.suffix_refl _
    | cons ch bs =>
      rw [run_char_cons] at h
      refine List.IsSuffix.trans ?_ (List.suffix_cons ch bs)
      by_cases hin : ch ∈ ok
      · simp only [hin, if_true] at h
        exact ih ch h
      · simp only [hin, if_false] at h
        cases h
        exact skipLine_suffix bs

/-- What a line that starts with a certain byte can be. -/
inductive Shape where
  /-- A keyword, of which `word` is to come, and operands. -/
  | operands (word : Bytes) (f : Format Directive)
  /-- A keyword that is a whole line. -/
  | whole (word : Bytes) (d : Directive)
  /-- The rest of the line is skipped. -/
  | skipped (d : Directive)
  | blank

def shapeOf (ch : UInt8) : Shape :=
  if ch = 'C'.toUInt8 then .operands (ascii "REATE ") (operands .cmdCreate)
  else if ch = 'R'.toUInt8 then .operands (ascii "ESERVE ") (operands .cmdReserve)
  else if ch = 'S'.toUInt8 then .operands (ascii "HOW ") (operands .cmdShow)
  else if ch = 'L'.toUInt8 then .whole (ascii "IST") (.call .emsListEvents)
  else if ch = 'W'.toUInt8 then .operands (ascii "AIT ") (operands .cmdWait)
  else if ch = 'H'.toUInt8 then .whole (ascii "ELP") .help
  else if ch = '#'.toUInt8 then .skipped .empty
  else if ch = 10 then .blank
  else .skipped .invalid

/-- What holds of every shape that `shapeOf` lists. -/
theorem shapeOf_induction {P : Shape → Prop}
    (hcreate : P (.operands (ascii "REATE ") (operands .cmdCreate)))
    (hreserve : P (.operands (ascii "ESERVE ") (operands .cmdReserve)))
    (hshow : P (.operands (ascii "HOW ") (operands .cmdShow)))
    (hlist : P (.whole (ascii "IST") (.call .emsListEvents)))
    (hwait : P (.operands (ascii "AIT ") (operands .cmdWait)))
    (hhelp : P (.whole (ascii "ELP") .help)) (hcomment : P (.skipped .empty)) (hblank : P .blank)
    (hinvalid : P (.skipped .invalid)) (ch : UInt8) : P (shapeOf ch) := by
  rw [shapeOf]
  refine iteInduction (motive := P) (fun _ => hcreate) fun _ => ?_
  refine iteInduction (motive := P) (fun _ => hreserve) fun _ => ?_
  refine iteInduction (motive := P) (fun _ => hshow) fun _ => ?_
  refine iteInduction (motive := P) (fun _ => hlist) fun _ => ?_
  refine iteInduction (motive := P) (fun _ => hwait) fun _ => ?_
  refine iteInduction (motive := P) (fun _ => hhelp) fun _ => ?_
  refine iteInduction (motive := P) (fun _ => hcomment) fun _ => ?_
  exact iteInduction (motive := P) (fun _ => hblank) fun _ => hinvalid

/-- A line that has to end after its keyword. -/
def endLine (d : Directive) : Bytes → Directive × Bytes
  | [] => (d, [])
  | ch :: rest => if ch = 10 then (d, rest) else (.invalid, skipLine rest)

/-- What an iteration gives that has read the first byte of a line. -/
def Shape.run (stack : Stack) (bs : Bytes) : Shape → Except Stop (Directive × Bytes)
  | .operands word f =>
    if bs.take word.length = word then (f.run stack).run (bs.drop word.length)
    else .ok (.invalid, skipLine (bs.drop word.length))
  | .whole word d =>
    if bs.take word.length = word then .ok (endLine d (bs.drop word.length))
    else .ok (.invalid, skipLine (bs.drop word.length))
  | .skipped d => .ok (d, skipLine bs)
  | .blank => .ok (.empty, bs)

/-- The same, with `num` for `parse_uint`. -/
def Shape.runWith (num : Scan (Option UInt32 × UInt8)) (bs : Bytes) :
    Shape → Except Stop (Directive × Bytes)
  | .operands word f =>
    if bs.take word.length = word then (f.runWith num).run (bs.drop word.length)
    else .ok (.invalid, skipLine (bs.drop word.length))
  | .whole word d =>
    if bs.take word.length = word then .ok (endLine d (bs.drop word.length))
    else .ok (.invalid, skipLine (bs.drop word.length))
  | .skipped d => .ok (d, skipLine bs)
  | .blank => .ok (.empty, bs)

theorem Shape.runWith_eq (stack : Stack) (bs : Bytes) (s : Shape) :
    s.runWith (parseUint stack) bs = s.run stack bs := by
  cases s with
  | operands word f => rw [Shape.runWith, Shape.run, Format.runWith_eq]
  | whole word d => rfl
  | skipped d => rfl
  | blank => rfl

section

variable (num : Scan (Option UInt32 × UInt8))

theorem keyword_run (word : Bytes) (cmd : Command) (bs : Bytes) :
    (keyword word cmd >>= fun c => (operands c).runWith num).run bs =
      (Shape.operands word (operands cmd)).runWith num bs := by
  have hread : (keyword word cmd).run bs = StateT.run
      (if bs.take word.length ≠ word then rejectWith Command.cmdInvalid else pure cmd)
      (bs.drop word.length) := rfl
  rw [Shape.runWith, StateT.run_bind, hread]
  by_cases h : bs.take word.length = word
  · rw [if_neg (not_not_intro h), if_pos h]
    rfl
  · rw [if_pos h, if_neg h]
    rfl

theorem lineEnd_run {cmd : Command} {d : Directive} (hd : operands cmd = .done d) (bs : Bytes) :
    (lineEnd cmd >>= fun c => (operands c).runWith num).run bs = .ok (endLine d bs) := by
  have hdone : ∀ rest, ((operands cmd).runWith num).run rest = .ok (d, rest) := fun rest => by
    rw [hd]
    rfl
  cases bs with
  | nil => exact hdone []
  | cons ch rest =>
    have hread : (lineEnd cmd).run (ch :: rest) =
        StateT.run (if ch ≠ 10 then rejectWith .cmdInvalid else pure cmd) rest := rfl
    rw [StateT.run_bind, hread, endLine]
    by_cases hch : ch = 10
    · rw [if_neg (not_not_intro hch), if_pos hch]
      exact hdone rest
    · rw [if_pos hch, if_neg hch]
      rfl

theorem keywordLine_run (word : Bytes) {cmd : Command} {d : Directive}
    (hd : operands cmd = .done d) (bs : Bytes) :
    (keywordLine word cmd >>= fun c => (operands c).runWith num).run bs =
      (Shape.whole word d).runWith num bs := by
  have hread : (keywordLine word cmd >>= fun c => (operands c).runWith num).run bs = StateT.run
      ((if bs.take word.length ≠ word then rejectWith .cmdInvalid else lineEnd cmd) >>= fun c =>
        (operands c).runWith num) (bs.drop word.length) := rfl
  rw [Shape.runWith, hread]
  by_cases h : bs.take word.length = word
  · rw [if_neg (not_not_intro h), if_pos h, lineEnd_run num hd]
  · rw [if_pos h, if_neg h]
    rfl

theorem nextDirectiveWith_cons (ch : UInt8) (bs : Bytes) :
    (nextDirectiveWith num).run (ch :: bs) = (shapeOf ch).runWith num bs := by
  have hread : (nextDirectiveWith num).run (ch :: bs) = StateT.run ((
    if ch = 'C'.toUInt8 then keyword (ascii "REATE ") .cmdCreate
    else if ch = 'R'.toUInt8 then keyword (ascii "ESERVE ") .cmdReserve
    else if ch = 'S'.toUInt8 then keyword (ascii "HOW ") .cmdShow
    else if ch = 'L'.toUInt8 then keywordLine (ascii "IST") .cmdListEvents
    else if ch = 'W'.toUInt8 then keyword (ascii "AIT ") .cmdWait
    else if ch = 'H'.toUInt8 then keywordLine (ascii "ELP") .cmdHelp
    else if ch = '#'.toUInt8 then rejectWith .cmdEmpty
    else if ch = 10 then return .cmdEmpty
    else rejectWith .cmdInvalid) >>= fun c => (operands c).runWith num) bs := rfl
  rw [hread, shapeOf]
  by_cases hC : ch = 'C'.toUInt8
  · rw [if_pos hC, if_pos hC]
    exact keyword_run num _ _ bs
  rw [if_neg hC, if_neg hC]
  by_cases hR : ch = 'R'.toUInt8
  · rw [if_pos hR, if_pos hR]
    exact keyword_run num _ _ bs
  rw [if_neg hR, if_neg hR]
  by_cases hS : ch = 'S'.toUInt8
  · rw [if_pos hS, if_pos hS]
    exact keyword_run num _ _ bs
  rw [if_neg hS, if_neg hS]
  by_cases hL : ch = 'L'.toUInt8
  · rw [if_pos hL, if_pos hL]
    exact keywordLine_run num _ rfl bs
  rw [if_neg hL, if_neg hL]
  by_cases hW : ch = 'W'.toUInt8
  · rw [if_pos hW, if_pos hW]
    exact keyword_run num _ _ bs
  rw [if_neg hW, if_neg hW]
  by_cases hH : ch = 'H'.toUInt8
  · rw [if_pos hH, if_pos hH]
    exact keywordLine_run num _ rfl bs
  rw [if_neg hH, if_neg hH]
  by_cases hhash : ch = '#'.toUInt8
  · rw [if_pos hhash, if_pos hhash]
    rfl
  rw [if_neg hhash, if_neg hhash]
  by_cases hnl : ch = 10
  · rw [if_pos hnl, if_pos hnl]
    rfl
  rw [if_neg hnl, if_neg hnl]
  rfl

end

theorem nextDirective_nil (stack : Stack) : (nextDirective stack).run [] = .ok (.eoc, []) := rfl

theorem nextDirective_cons (stack : Stack) (ch : UInt8) (bs : Bytes) :
    (nextDirective stack).run (ch :: bs) = (shapeOf ch).run stack bs := by
  rw [← nextDirectiveWith_eq, nextDirectiveWith_cons, Shape.runWith_eq]

/-! ## The loop -/

theorem endLine_suffix (d : Directive) (bs : Bytes) : (endLine d bs).2 <:+ bs := by
  cases bs with
  | nil => exact List.suffix_refl _
  | cons ch rest =>
    rw [endLine]
    split
    · exact List.suffix_cons ch rest
    · exact (skipLine_suffix rest).trans (List.suffix_cons ch rest)

theorem Shape.run_suffix {stack : Stack} {bs rest : Bytes} {d : Directive} {s : Shape}
    (h : s.run stack bs = .ok (d, rest)) : rest <:+ bs := by
  cases s with
  | operands word f =>
    rw [Shape.run] at h
    split at h
    · exact (Format.run_suffix h).trans (List.drop_suffix _ _)
    · cases h
      exact (skipLine_suffix _).trans (List.drop_suffix _ _)
  | whole word d' =>
    rw [Shape.run] at h
    split at h
    · have hd := (endLine_suffix d' (bs.drop word.length)).trans (List.drop_suffix _ _)
      rwa [Except.ok.inj h] at hd
    · cases h
      exact (skipLine_suffix _).trans (List.drop_suffix _ _)
  | skipped d' =>
    cases h
    exact skipLine_suffix bs
  | blank =>
    cases h
    exact List.suffix_refl _

theorem createDirective_ne (r : Option (UInt32 × UInt64 × UInt64)) :
    createDirective r ≠ .eoc := by
  cases r <;> exact Directive.noConfusion

theorem reserveDirective_ne (r : Nat × Reservation) : reserveDirective r ≠ .eoc := by
  rw [reserveDirective]
  split <;> exact Directive.noConfusion

theorem showDirective_ne (r : Option UInt32) : showDirective r ≠ .eoc := by
  cases r <;> exact Directive.noConfusion

theorem waitDirective_ne (r : Int32 × Option UInt32 × Option UInt32) : waitDirective r ≠ .eoc := by
  rw [waitDirective]
  split <;> exact Directive.noConfusion

theorem endLine_ne_eoc {d : Directive} (h : d ≠ .eoc) (bs : Bytes) : (endLine d bs).1 ≠ .eoc := by
  cases bs with
  | nil => exact h
  | cons ch rest =>
    rw [endLine]
    split
    · exact h
    · exact Directive.noConfusion

theorem Format.runWith_map_ok {α β : Type} {g : α → β} {num : Scan (Option UInt32 × UInt8)}
    {f : Format α} {bs rest : Bytes} {b : β}
    (h : ((f.map g).runWith num).run bs = .ok (b, rest)) :
    ∃ a, (f.runWith num).run bs = .ok (a, rest) ∧ g a = b := by
  rw [runWith_map] at h
  cases hrun : (f.runWith num).run bs with
  | error e =>
    rw [hrun] at h
    cases h
  | ok r =>
    rw [hrun] at h
    cases h
    exact ⟨r.1, rfl, rfl⟩

theorem Format.run_map_ok {α β : Type} {g : α → β} {stack : Stack} {f : Format α}
    {bs rest : Bytes} {b : β} (h : ((f.map g).run stack).run bs = .ok (b, rest)) :
    ∃ a, (f.run stack).run bs = .ok (a, rest) ∧ g a = b := by
  rw [← runWith_eq] at h
  rw [← runWith_eq]
  exact runWith_map_ok h

theorem shapeOf_runWith_ne_eoc {num : Scan (Option UInt32 × UInt8)} {ch : UInt8}
    {bs rest : Bytes} {d : Directive} (h : (shapeOf ch).runWith num bs = .ok (d, rest)) :
    d ≠ .eoc := by
  have hoperands : ∀ {α : Type} {g : α → Directive} (word : Bytes) (f : Format α),
      (∀ a, g a ≠ .eoc) → (Shape.operands word (f.map g)).runWith num bs = .ok (d, rest) →
      d ≠ .eoc := fun word f hg h => by
    rw [Shape.runWith] at h
    split at h
    · obtain ⟨a, -, rfl⟩ := Format.runWith_map_ok h
      exact hg a
    · cases h
      exact Directive.noConfusion
  have hwhole : ∀ {d' : Directive} (word : Bytes), d' ≠ .eoc →
      (Shape.whole word d').runWith num bs = .ok (d, rest) → d ≠ .eoc := fun word hd' h => by
    rw [Shape.runWith] at h
    split at h
    · have hd := endLine_ne_eoc hd' (bs.drop word.length)
      rwa [Except.ok.inj h] at hd
    · cases h
      exact Directive.noConfusion
  have hskipped : ∀ {d' : Directive}, d' ≠ .eoc →
      (Shape.skipped d').runWith num bs = .ok (d, rest) → d ≠ .eoc := fun hd' h => by
    cases h
    exact hd'
  have hblank : Shape.blank.runWith num bs = .ok (d, rest) → d ≠ .eoc := fun h => by
    cases h
    exact Directive.noConfusion
  exact shapeOf_induction (P := fun s => s.runWith num bs = .ok (d, rest) → d ≠ .eoc)
    (hoperands _ _ createDirective_ne) (hoperands _ _ reserveDirective_ne)
    (hoperands _ _ showDirective_ne) (hwhole _ Directive.noConfusion)
    (hoperands _ _ waitDirective_ne) (hwhole _ Directive.noConfusion)
    (hskipped Directive.noConfusion) hblank (hskipped Directive.noConfusion) ch h

/-- Only at the end of the file does the loop stop. -/
theorem shapeOf_ne_eoc {stack : Stack} {ch : UInt8} {bs rest : Bytes} {d : Directive}
    (h : (shapeOf ch).run stack bs = .ok (d, rest)) : d ≠ .eoc := by
  rw [← Shape.runWith_eq] at h
  exact shapeOf_runWith_ne_eoc h

/-- An iteration takes at least one byte from the file, except at its end. -/
theorem nextDirective_cases {stack : Stack} {bs rest : Bytes} {d : Directive}
    (h : (nextDirective stack).run bs = .ok (d, rest)) :
    bs = [] ∧ d = .eoc ∧ rest = [] ∨ ∃ ch bs', bs = ch :: bs' ∧ d ≠ .eoc ∧ rest <:+ bs' := by
  cases bs with
  | nil =>
    cases h
    exact Or.inl ⟨rfl, rfl, rfl⟩
  | cons ch bs =>
    rw [nextDirective_cons] at h
    refine Or.inr ⟨ch, bs, rfl, shapeOf_ne_eoc h, Shape.run_suffix h⟩

theorem commandLoop_succ (stack : Stack) (fuel : Nat) (file : Bytes) :
    (commandLoop stack (fuel + 1)).run file =
      match (nextDirective stack).run file with
      | .error e => .error e
      | .ok (.eoc, rest) => .ok ([], rest)
      | .ok (d, rest) => ((commandLoop stack fuel).run rest).map fun r => (d :: r.1, r.2) := by
  rw [commandLoop, StateT.run_bind]
  rcases (nextDirective stack).run file with e | ⟨d, rest⟩
  · rfl
  · cases d <;> rfl

theorem commandLoop_next {stack : Stack} {file rest : Bytes} {d : Directive}
    (h : (nextDirective stack).run file = .ok (d, rest)) (hd : d ≠ .eoc) (fuel : Nat) :
    (commandLoop stack (fuel + 1)).run file =
      ((commandLoop stack fuel).run rest).map fun r => (d :: r.1, r.2) := by
  rw [commandLoop_succ, h]
  cases d with
  | eoc => exact absurd rfl hd
  | _ => rfl

/-- Fuel beyond the length of the file makes no difference. -/
theorem commandLoop_fuel (stack : Stack) {n fuel : Nat} {file : Bytes} (hn : file.length ≤ n)
    (h : file.length < fuel) : (commandLoop stack fuel).run file = commands stack file := by
  induction n generalizing file fuel with
  | zero =>
    obtain rfl := List.length_eq_zero_iff.1 (Nat.le_zero.1 hn)
    obtain ⟨fuel, rfl⟩ := Nat.exists_eq_add_one_of_ne_zero (Nat.ne_of_gt h)
    rw [commands, commandLoop_succ, commandLoop_succ, nextDirective_nil]
  | succ n ih =>
    obtain ⟨fuel, rfl⟩ := Nat.exists_eq_add_one_of_ne_zero (Nat.ne_zero_of_lt h)
    rw [commands]
    cases hnext : (nextDirective stack).run file with
    | error e => rw [commandLoop_succ, commandLoop_succ, hnext]
    | ok r =>
      obtain ⟨rfl, rd, -⟩ | ⟨ch, bs, rfl, hd, hrest⟩ := nextDirective_cases hnext
      · rw [commandLoop_succ, commandLoop_succ, nextDirective_nil]
      · have hle := hrest.length_le
        simp only [List.length_cons] at hn h ⊢
        rw [commandLoop_next hnext hd, commandLoop_next hnext hd, ih (by omega) (by omega),
          ih (by omega) (by omega)]

/-- One iteration of the loop. -/
theorem commands_next {stack : Stack} {file rest : Bytes} {d : Directive}
    (h : (nextDirective stack).run file = .ok (d, rest)) (hd : d ≠ .eoc) :
    commands stack file = (commands stack rest).map fun r => (d :: r.1, r.2) := by
  obtain ⟨-, rfl, -⟩ | ⟨ch, bs, rfl, -, hrest⟩ := nextDirective_cases h
  · exact absurd rfl hd
  · have hle := hrest.length_le
    rw [commands, commandLoop_next h hd, commandLoop_fuel stack (Nat.le_refl _)]
    rw [List.length_cons]
    omega

theorem commands_error {stack : Stack} {file : Bytes} {e : Stop}
    (h : (nextDirective stack).run file = .error e) : commands stack file = .error e := by
  rw [commands, commandLoop_succ, h]

theorem commands_nil (stack : Stack) : commands stack [] = .ok ([], []) := rfl

theorem requests_nil (stack : Stack) : requests stack [] = .ok [] := rfl

theorem requests_next {stack : Stack} {file rest : Bytes} {d : Directive}
    (h : (nextDirective stack).run file = .ok (d, rest)) (hd : d ≠ .eoc) :
    requests stack file = (requests stack rest).map (d.calls ++ ·) := by
  rw [requests, requests, commands_next h hd]
  cases commands stack rest <;> rfl

theorem requests_error {stack : Stack} {file : Bytes} {e : Stop}
    (h : (nextDirective stack).run file = .error e) : requests stack file = .error e := by
  rw [requests, commands_error h]
  rfl

end EventServer.Client
