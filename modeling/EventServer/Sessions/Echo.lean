import EventServer.Client.Main
import EventServer.Office.Texts

/-
  What a client prints, as a function of its commands and of the replies of the box office.

  `echo` is the output of the command loop after the commands `ds`, when its calls have got the
  replies `rs`: the text of each reply in the output file, and the messages of `main`. The messages
  that the functions of the api print themselves are not part of it.
-/

namespace EventServer

open Lib Client

/-- What is in the output file, and what `main` has printed. -/
structure Printed where
  out : Bytes := []
  stdout : Bytes := []
  stderr : Bytes := []
  deriving DecidableEq, Repr

instance : Append Printed where
  append p q := ⟨p.out ++ q.out, p.stdout ++ q.stdout, p.stderr ++ q.stderr⟩

namespace Printed

theorem append_def (p q : Printed) :
    p ++ q = ⟨p.out ++ q.out, p.stdout ++ q.stdout, p.stderr ++ q.stderr⟩ := rfl

@[simp] theorem nil_append (p : Printed) : ({} : Printed) ++ p = p := rfl

@[simp] theorem append_nil (p : Printed) : p ++ ({} : Printed) = p := by
  simp [append_def]

theorem append_assoc (p q r : Printed) : p ++ q ++ r = p ++ (q ++ r) := by
  simp [append_def]

end Printed

/-- What a client has printed. -/
def Client.Program.printed {σ : Type} (s : Program σ) : Printed where
  out := s.process.out.written
  stdout := s.stdout
  stderr := s.stderr

/-- What is printed for a call. -/
def Reply.printed (c : Call) (reply : Reply) : Printed where
  out := reply.text
  stderr := if reply.code ≠ 0 then ascii (Client.Main.failure c) else []

/-- What is printed for a command that is not a call. -/
def Client.Directive.printed : Directive → Printed
  | .wait delay => { stdout := if delay > 0 then ascii "Waiting...\n" else [] }
  | .help => { stdout := ascii Client.Main.help }
  | .invalid => { stderr := ascii "Invalid command. See HELP for usage\n" }
  | _ => {}

theorem Client.Directive.printed_wait (delay : UInt32) : (Directive.wait delay).printed =
    { stdout := if delay > 0 then ascii "Waiting...\n" else [] } := rfl

/-- What is printed for the commands, as far as there are replies for the calls among them. -/
def echo : List Directive → List Reply → Printed
  | [], _ => {}
  | .call c :: ds, reply :: replies => reply.printed c ++ echo ds replies
  | .call _ :: _, [] => {}
  | d :: ds, replies => d.printed ++ echo ds replies

/-- The calls of commands. -/
def callsOf (ds : List Directive) : List Call := ds.flatMap Directive.calls

section Echo

variable {ds ds' : List Directive} {replies replies' : List Reply}

theorem echo_cons {d : Directive} (hd : d.calls = []) :
    echo (d :: ds) replies = d.printed ++ echo ds replies := by
  cases d with
  | call c => cases hd
  | _ => rfl

theorem callsOf_append : callsOf (ds ++ ds') = callsOf ds ++ callsOf ds' := List.flatMap_append

theorem callsOf_cons {d : Directive} : callsOf (d :: ds) = d.calls ++ callsOf ds := List.flatMap_cons

/-- Every command is a call or has none. -/
theorem calls_eq (d : Directive) : (∃ c, d = .call c) ∨ d.calls = [] := by
  cases d with
  | call c => exact Or.inl ⟨c, rfl⟩
  | _ => exact Or.inr rfl

/-- The commands that follow print for the replies that are left. -/
theorem echo_append (h : (callsOf ds).length ≤ replies.length) :
    echo (ds ++ ds') replies = echo ds replies ++ echo ds' (replies.drop (callsOf ds).length) := by
  induction ds generalizing replies with
  | nil => rfl
  | cons d ds ih =>
    rw [callsOf_cons] at h ⊢
    obtain ⟨c, rfl⟩ | hd := calls_eq d
    · cases replies with
      | nil => simp [Directive.calls] at h
      | cons reply replies =>
        have hlen : (callsOf ds).length ≤ replies.length := by simpa [Directive.calls] using h
        rw [List.cons_append, echo, echo, ih hlen, Printed.append_assoc]
        simp [Directive.calls]
    · rw [hd, List.nil_append] at h ⊢
      rw [List.cons_append, echo_cons hd, echo_cons hd, ih h, Printed.append_assoc]

/-- More replies than calls make no difference. -/
theorem echo_more (h : (callsOf ds).length ≤ replies.length) :
    echo ds (replies ++ replies') = echo ds replies := by
  induction ds generalizing replies with
  | nil => rfl
  | cons d ds ih =>
    rw [callsOf_cons] at h
    obtain ⟨c, rfl⟩ | hd := calls_eq d
    · cases replies with
      | nil => simp [Directive.calls] at h
      | cons reply replies =>
        rw [List.cons_append, echo, echo, ih (by simpa [Directive.calls] using h)]
    · rw [hd, List.nil_append] at h
      rw [echo_cons hd, echo_cons hd, ih h]

theorem echo_call {c : Call} {reply : Reply} (h : (callsOf ds).length = replies.length) :
    echo (ds ++ [.call c]) (replies ++ [reply]) = echo ds replies ++ reply.printed c := by
  rw [echo_append (by simp [h]), echo_more h.le, h, List.drop_left, echo, echo, Printed.append_nil]

theorem echo_other {d : Directive} (hd : d.calls = [])
    (h : (callsOf ds).length ≤ replies.length) :
    echo (ds ++ [d]) replies = echo ds replies ++ d.printed := by
  rw [echo_append h, echo_cons hd, echo, Printed.append_nil]

end Echo

/-! ## Reading the job file -/

/-- The loop has read the commands `ds` off the file, and `rest` is left. -/
inductive ReadOff (stack : Stack) (file : Bytes) : List Directive → Bytes → Prop
  | start : ReadOff stack file [] file
  | next {ds : List Directive} {rest rest' : Bytes} {d : Directive}
    (h : ReadOff stack file ds rest) (hnext : (nextDirective stack).run rest = .ok (d, rest'))
    (hd : d ≠ .eoc) : ReadOff stack file (ds ++ [d]) rest'

theorem ReadOff.commands_eq {stack : Stack} {file rest : Bytes} {ds : List Directive}
    (h : ReadOff stack file ds rest) :
    commands stack file = (commands stack rest).map fun r => (ds ++ r.1, r.2) := by
  induction h with
  | start =>
    cases commands stack file <;> rfl
  | @next ds rest rest' d _ hnext hd ih =>
    rw [ih, commands_next hnext hd]
    cases commands stack rest' with
    | error e => rfl
    | ok r =>
      have happend : ds ++ d :: r.1 = ds ++ [d] ++ r.1 := by rw [List.append_assoc]; rfl
      exact congrArg (fun ds => Except.ok (ds, r.2)) happend

end EventServer
