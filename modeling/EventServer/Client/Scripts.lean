import EventServer.Client.Grammar

/-
  Scripts: job files that are printed from a list of commands.

  `Statement.text` writes a command as the README gives it, with decimal numbers and a newline. The
  loop reads a script back: `nextDirective_text` for one command in front of any text,
  `commands_script` for the whole script.
-/

namespace EventServer.Client

open Lib

/-- A command of a script. A reservation lists at least one seat, and fewer than
    `MAX_RESERVATION_SIZE`. -/
inductive Statement where
  | create (event_id num_rows num_columns : UInt32)
  | reserve (event_id : UInt32) (coords : List (UInt32 × UInt32))
    (some : coords ≠ []) (few : coords.length < MAX_RESERVATION_SIZE)
  | showEvent (event_id : UInt32)
  | list
  | wait (delay : UInt32)
  | help
  | blank
  | comment (text : Bytes) (line : 10 ∉ text)

namespace Statement

def text : Statement → Bytes
  | create event_id num_rows num_columns =>
    (Spelling.create (decimal event_id) (decimal num_rows) (decimal num_columns)).text ++ ascii "\n"
  | reserve event_id coords _ _ =>
    (Spelling.reserve (decimal event_id) (coords.map fun c => (decimal c.1, decimal c.2))).text ++
      ascii "\n"
  | showEvent event_id => (Spelling.showEvent (decimal event_id)).text ++ ascii "\n"
  | list => ascii "LIST\n"
  | wait delay => ascii "WAIT " ++ decimal delay ++ ascii "\n"
  | help => ascii "HELP\n"
  | blank => ascii "\n"
  | comment text _ => ascii "#" ++ text ++ ascii "\n"

/-- What the loop is to do for a command. -/
def directive : Statement → Directive
  | create event_id num_rows num_columns =>
    .call (.emsCreate event_id num_rows.toUInt64 num_columns.toUInt64)
  | reserve event_id coords _ _ =>
    .call (.emsReserve event_id ⟨.ofNat coords.length, coords.map fun c => c.1.toUInt64,
      coords.map fun c => c.2.toUInt64⟩)
  | showEvent event_id => .call (.emsShow event_id)
  | list => .call .emsListEvents
  | wait delay => .wait delay
  | help => .help
  | blank => .empty
  | comment _ _ => .empty

end Statement

theorem number_decimal (v : UInt32) : Number (decimal v) :=
  ⟨decimal_digits v, length_decimal_le v, by rw [digitsValue_decimal]; exact v.toNat_lt⟩

@[simp] theorem numberValue_decimal (v : UInt32) : numberValue (decimal v) = v := by
  rw [numberValue, digitsValue_decimal, UInt32.ofNat_toNat]

/-- One command, in front of any text. -/
theorem nextDirective_text (stack : Stack) (s : Statement) (rest : Bytes) :
    (nextDirective stack).run (s.text ++ rest) = .ok (s.directive, rest) := by
  have hspelled : ∀ {sp : Spelling}, sp.Readable →
      (nextDirective stack).run (sp.text ++ ascii "\n" ++ rest) = .ok (.call sp.call, rest) :=
    fun {sp} hsp => by
      rw [List.append_assoc]
      exact nextDirective_spelled stack hsp (by decide : 10 ∈ lineEnds) rest
  cases s with
  | create event_id num_rows num_columns =>
    have hsp : (Spelling.create (decimal event_id) (decimal num_rows)
        (decimal num_columns)).Readable := ⟨by simp [Spelling.numbers, number_decimal], trivial⟩
    refine (hspelled hsp).trans ?_
    simp [Spelling.call, Spelling.callWith, Spelling.last, Statement.directive]
  | reserve event_id coords some few =>
    have hsp : (Spelling.reserve (decimal event_id)
        (coords.map fun c => (decimal c.1, decimal c.2))).Readable := by
      refine ⟨fun n hn => ?_, fun hnil => some (List.map_eq_nil_iff.1 hnil), by rwa [List.length_map]⟩
      simp only [Spelling.numbers, List.mem_cons, List.mem_flatMap, List.mem_map] at hn
      obtain rfl | ⟨c, ⟨c', -, rfl⟩, hn⟩ := hn
      · exact number_decimal event_id
      · simp only [List.not_mem_nil, or_false] at hn
        obtain rfl | rfl := hn <;> exact number_decimal _
    refine (hspelled hsp).trans ?_
    simp [Spelling.call, Spelling.callWith, Statement.directive, Function.comp_def]
  | showEvent event_id =>
    have hsp : (Spelling.showEvent (decimal event_id)).Readable :=
      ⟨by simp [Spelling.numbers, number_decimal], trivial⟩
    refine (hspelled hsp).trans ?_
    simp [Spelling.call, Spelling.callWith, Spelling.last, Statement.directive]
  | list => rfl
  | wait delay =>
    have hread : ((parseWait false).run stack).run (decimal delay ++ 10 :: rest) =
        .ok ((0, some delay, none), rest) := by
      rw [parseWait, run_number stack (number_decimal delay) (by decide) (by decide),
        numberValue_decimal]
      rfl
    rw [Statement.text, List.append_assoc, List.append_assoc]
    refine (nextDirective_keyword stack 'W'.toUInt8 rfl _).trans ?_
    exact (Format.run_map waitDirective stack (parseWait false) _).trans (congrArg _ hread)
  | help => rfl
  | blank => rfl
  | comment text line =>
    rw [Statement.text, List.append_assoc, List.append_assoc]
    refine (nextDirective_cons stack '#'.toUInt8 (text ++ (ascii "\n" ++ rest))).trans ?_
    exact congrArg (fun bs => Except.ok (Directive.empty, bs)) (skipLine_line line rest)

/-- **Parsing undoes printing**, for whole scripts: the loop reads the commands of the script, and
    nothing is left when it finds the end of the file. -/
theorem commands_script (stack : Stack) (script : List Statement) :
    commands stack (script.flatMap Statement.text) =
      .ok (script.map Statement.directive, []) := by
  induction script with
  | nil => exact commands_nil stack
  | cons s script ih =>
    have hread := nextDirective_text stack s (script.flatMap Statement.text)
    have hd : s.directive ≠ .eoc := by cases s <;> exact Directive.noConfusion
    rw [List.flatMap_cons, commands_next hread hd, ih]
    rfl

end EventServer.Client
