import EventServer.Client.Commands

/-
  The grammar that the parsers accept.

  A `Spelling` is a command with its numbers as they are written. The parsers take any string of
  digits for a number, also the empty one, and take a NUL byte or the end of the file for a newline.
  `nextDirective_spelled` and `nextDirective_spelled_eof` read a spelling, `spelling_of_call` finds
  the spelling of what has been read, and `text_unique` says that there is only one.
  `acceptsGrammar_iff` compares this with the grammar of the README.
-/

namespace EventServer.Client

open Lib

/-- A string of digits that `parse_uint` accepts. -/
structure Number (n : Bytes) : Prop where
  digits : Digits n
  short : n.length ≤ 15
  small : digitsValue n < 2 ^ 32

/-- Its value. -/
def numberValue (n : Bytes) : UInt32 := .ofNat (digitsValue n)

/-- A command with its numbers as they are written. -/
inductive Spelling where
  | create (event_id num_rows num_columns : Bytes)
  | reserve (event_id : Bytes) (coords : List (Bytes × Bytes))
  | showEvent (event_id : Bytes)
  deriving DecidableEq, Repr

/-- Coordinates as they stand between the brackets. -/
def coordsText : List (Bytes × Bytes) → Bytes
  | [] => []
  | [(x, y)] => ascii "(" ++ x ++ ascii "," ++ y ++ ascii ")"
  | (x, y) :: coords => ascii "(" ++ x ++ ascii "," ++ y ++ ascii ") " ++ coordsText coords

namespace Spelling

/-- The text of a command, without what ends it. -/
def text : Spelling → Bytes
  | create event_id num_rows num_columns =>
    ascii "CREATE " ++ event_id ++ ascii " " ++ num_rows ++ ascii " " ++ num_columns
  | reserve event_id coords =>
    ascii "RESERVE " ++ event_id ++ ascii " [" ++ coordsText coords ++ ascii "]"
  | showEvent event_id => ascii "SHOW " ++ event_id

def numbers : Spelling → List Bytes
  | create event_id num_rows num_columns => [event_id, num_rows, num_columns]
  | reserve event_id coords => event_id :: coords.flatMap fun c => [c.1, c.2]
  | showEvent event_id => [event_id]

/-- The number at the end of the command. -/
def last : Spelling → Option Bytes
  | create _ _ num_columns => some num_columns
  | reserve _ _ => none
  | showEvent event_id => some event_id

/-- The call, with `v` for the number at the end. -/
def callWith (v : UInt32) : Spelling → Call
  | create event_id num_rows _ =>
    .emsCreate (numberValue event_id) (numberValue num_rows).toUInt64 v.toUInt64
  | reserve event_id coords =>
    .emsReserve (numberValue event_id) ⟨.ofNat coords.length,
      coords.map fun c => (numberValue c.1).toUInt64,
      coords.map fun c => (numberValue c.2).toUInt64⟩
  | showEvent _ => .emsShow v

/-- The call that the command stands for. -/
def call (sp : Spelling) : Call := sp.callWith (numberValue (sp.last.getD []))

/-- As many coordinates as a reservation may list. -/
def Sized : Spelling → Prop
  | reserve _ coords => coords ≠ [] ∧ coords.length < MAX_RESERVATION_SIZE
  | _ => True

/-- The parsers read the spelling. -/
structure Readable (sp : Spelling) : Prop where
  numbers : ∀ n ∈ sp.numbers, Number n
  sized : sp.Sized

/-- Numbers are digits, and a reservation lists seats. -/
structure Plain (sp : Spelling) : Prop where
  digits : ∀ n ∈ sp.numbers, Digits n
  listed : ∀ event_id coords, sp = reserve event_id coords → coords ≠ []

/-- The README allows the spelling. -/
structure Documented (sp : Spelling) : Prop extends sp.Plain where
  given : [] ∉ sp.numbers
  small : ∀ n ∈ sp.numbers, digitsValue n < 2 ^ 32

theorem Readable.plain {sp : Spelling} (h : sp.Readable) : sp.Plain where
  digits n hn := (h.numbers n hn).digits
  listed event_id coords hsp := by
    subst hsp
    exact h.sized.1

theorem Readable.documented {sp : Spelling} (h : sp.Readable) (hgiven : [] ∉ sp.numbers) :
    sp.Documented :=
  { h.plain with given := hgiven, small := fun n hn => (h.numbers n hn).small }

/-- The number at the end can be told from the call. -/
theorem callWith_inj {sp : Spelling} {n : Bytes} (hlast : sp.last = some n) {v v' : UInt32}
    (h : sp.callWith v = sp.callWith v') : v = v' := by
  cases sp with
  | create event_id num_rows num_columns =>
    exact UInt32.toUInt64_inj.1 (Call.emsCreate.inj h).2.2
  | reserve event_id coords => cases hlast
  | showEvent event_id => exact Call.emsShow.inj h

theorem last_mem {sp : Spelling} {n : Bytes} (h : sp.last = some n) : n ∈ sp.numbers := by
  cases sp with
  | create event_id num_rows num_columns =>
    cases h
    simp [numbers]
  | reserve event_id coords => cases h
  | showEvent event_id =>
    cases h
    simp [numbers]

theorem callWith_ne_list (sp : Spelling) (v : UInt32) : sp.callWith v ≠ .emsListEvents := by
  cases sp <;> exact Call.noConfusion

end Spelling

/-! ## Reading a spelling -/

section

variable {α : Type} (stack : Stack)

theorem uintOf_number {n : Bytes} (h : Number n) : uintOf n = some (numberValue n) :=
  if_pos h.small

theorem run_number {ends : Bytes} {failed : Option UInt32 → α} {next : UInt32 → UInt8 → Format α}
    {n : Bytes} (h : Number n) {ch : UInt8} (hch : ch ∈ ends) (hdigit : isDigit ch = false)
    (rest : Bytes) :
    ((Format.uint ends failed next).run stack).run (n ++ ch :: rest) =
      ((next (numberValue n) ch).run stack).run rest := by
  rw [Format.run_uint, parseUint_ended stack h.digits h.short hdigit, uintOf_number h]
  exact if_pos hch

/-- A number at the end of the file, with what `strtoul` makes of the buffer. -/
theorem run_number_eof {failed : Option UInt32 → α} {next : UInt32 → UInt8 → Format α} {n : Bytes}
    (h : Number n) {ul : Nat} (hul : strtoul (leftover stack n) = some ul) (hlt : ul < 2 ^ 32) :
    ((Format.uint lineEnds failed next).run stack).run n =
      ((next (.ofNat ul) 0).run stack).run [] := by
  rw [Format.run_uint, parseUint_eof stack h.digits (h.short.trans (by decide)), parsed, hul]
  simp only [hlt, if_true]
  exact if_pos (by decide)

theorem run_expected {ok : Bytes} {failed : α} {next : UInt8 → Format α} {ch : UInt8}
    (hch : ch ∈ ok) (rest : Bytes) :
    ((Format.char ok failed next).run stack).run (ch :: rest) =
      ((next ch).run stack).run rest := by
  rw [Format.run_char_cons, if_pos hch]

theorem nextDirective_keyword (ch : UInt8) {word : Bytes} {f : Format Directive}
    (hshape : shapeOf ch = .operands word f) (rest : Bytes) :
    (nextDirective stack).run (ch :: (word ++ rest)) = (f.run stack).run rest := by
  rw [nextDirective_cons, hshape, Shape.run, List.take_left, List.drop_left, if_pos rfl]

/-- The reservation after one more seat. -/
def Reservation.add (r : Reservation) (c : Bytes × Bytes) : Reservation :=
  { r with xs := r.xs ++ [(numberValue c.1).toUInt64], ys := r.ys ++ [(numberValue c.2).toUInt64] }

theorem foldl_add (coords : List (Bytes × Bytes)) (r : Reservation) :
    coords.foldl Reservation.add r =
      { r with xs := r.xs ++ coords.map fun c => (numberValue c.1).toUInt64,
               ys := r.ys ++ coords.map fun c => (numberValue c.2).toUInt64 } := by
  induction coords generalizing r with
  | nil => simp
  | cons c coords ih => simp [ih, Reservation.add]

/-- The two numbers of a seat. -/
def Seat (c : Bytes × Bytes) : Prop := Number c.1 ∧ Number c.2

/-- One pass of the loop. -/
theorem reserveLoop_coord (room : Nat) (r : Reservation) {c : Bytes × Bytes} (hc : Seat c)
    {ch : UInt8} (hch : ch ∈ ascii " ]") (rest : Bytes) :
    ((reserveLoop (room + 1) r).run stack).run
      (ascii "(" ++ c.1 ++ ascii "," ++ c.2 ++ ascii ")" ++ ch :: rest) =
      if ch = ']'.toUInt8 then
        if room = 0 then .ok ((0, r.add c), skipLine rest)
        else ((Format.char lineEnds (0, r.add c)
          fun _ => .done ((r.add c).xs.length, r.add c)).run stack).run rest
      else ((reserveLoop room (r.add c)).run stack).run rest := by
  simp only [List.append_assoc]
  rw [reserveLoop]
  refine (run_expected stack (by decide) _).trans ?_
  refine (run_number stack hc.1 (by decide) (by decide) _).trans ?_
  refine (run_number stack hc.2 (by decide) (by decide) _).trans ?_
  refine (run_expected stack hch _).trans ?_
  dsimp only
  split
  · split
    · rfl
    · rfl
  · rfl

theorem coordsText_cons (c : Bytes × Bytes) {coords : List (Bytes × Bytes)} (hne : coords ≠ [])
    (t : Bytes) :
    coordsText (c :: coords) ++ t = ascii "(" ++ c.1 ++ ascii "," ++ c.2 ++ ascii ")" ++
      ' '.toUInt8 :: (coordsText coords ++ t) := by
  cases coords with
  | nil => exact absurd rfl hne
  | cons c' coords =>
    have hcons : coordsText (c :: c' :: coords) = ascii "(" ++ c.1 ++ ascii "," ++ c.2 ++
        (ascii ")" ++ [' '.toUInt8]) ++ coordsText (c' :: coords) := rfl
    rw [hcons]
    simp only [List.append_assoc, List.cons_append, List.nil_append]

/-- The coordinates that are still to come when there is room for more than these. -/
theorem reserveLoop_coords {coords : List (Bytes × Bytes)} {room : Nat} (hne : coords ≠ [])
    (hroom : coords.length < room) (hseats : ∀ c ∈ coords, Seat c) (r : Reservation) {ch : UInt8}
    (hch : ch ∈ lineEnds) (rest : Bytes) :
    ((reserveLoop room r).run stack).run (coordsText coords ++ (ascii "]" ++ ch :: rest)) =
      .ok (((coords.foldl Reservation.add r).xs.length, coords.foldl Reservation.add r), rest) := by
  induction coords generalizing room r with
  | nil => exact absurd rfl hne
  | cons c coords ih =>
    rw [List.forall_mem_cons] at hseats
    obtain ⟨room, rfl⟩ := Nat.exists_eq_add_one_of_ne_zero (Nat.ne_zero_of_lt hroom)
    rw [List.length_cons] at hroom
    by_cases hcoords : coords = []
    · subst hcoords
      have hread := reserveLoop_coord stack room r hseats.1
        (show ']'.toUInt8 ∈ ascii " ]" by decide) (ch :: rest)
      rw [if_pos rfl, if_neg (by omega)] at hread
      exact hread.trans (run_expected stack hch rest)
    · have hread := reserveLoop_coord stack room r hseats.1
        (show ' '.toUInt8 ∈ ascii " ]" by decide) (coordsText coords ++ (ascii "]" ++ ch :: rest))
      rw [if_neg (by decide)] at hread
      rw [coordsText_cons c hcoords, hread, ih hcoords (by omega) hseats.2]
      rfl

theorem parseReserve_spelled {event_id : Bytes} (hid : Number event_id)
    {coords : List (Bytes × Bytes)} {max : Nat} (hne : coords ≠ []) (hmax : coords.length < max)
    (hseats : ∀ c ∈ coords, Seat c) {ch : UInt8} (hch : ch ∈ lineEnds) (rest : Bytes) :
    ((parseReserve max).run stack).run
      (event_id ++ ascii " [" ++ coordsText coords ++ ascii "]" ++ ch :: rest) =
      .ok ((coords.length, { event_id := some (numberValue event_id),
                             xs := coords.map fun c => (numberValue c.1).toUInt64,
                             ys := coords.map fun c => (numberValue c.2).toUInt64 }), rest) := by
  have hloop := reserveLoop_coords stack hne hmax hseats
    { event_id := some (numberValue event_id) } hch rest
  rw [foldl_add] at hloop
  simp only [List.nil_append, List.length_map, List.append_assoc] at hloop ⊢
  rw [parseReserve]
  refine (run_number stack hid (by decide) (by decide) _).trans ?_
  exact (run_expected stack (by decide) _).trans hloop

/-- A readable command that a newline, or a NUL byte, ends. -/
theorem nextDirective_spelled {sp : Spelling} (h : sp.Readable) {ch : UInt8} (hch : ch ∈ lineEnds)
    (rest : Bytes) : (nextDirective stack).run (sp.text ++ ch :: rest) = .ok (.call sp.call, rest) := by
  have hdigit := isDigit_of_mem_lineEnds hch
  cases sp with
  | create event_id num_rows num_columns =>
    have hn := h.numbers
    simp only [Spelling.numbers, List.forall_mem_cons] at hn
    have hread : (parseCreate.run stack).run
        (event_id ++ (ascii " " ++ (num_rows ++ (ascii " " ++ (num_columns ++ ch :: rest))))) =
        .ok (some (numberValue event_id, (numberValue num_rows).toUInt64,
          (numberValue num_columns).toUInt64), rest) := by
      rw [parseCreate]
      refine (run_number stack hn.1 (by decide) (by decide) _).trans ?_
      refine (run_number stack hn.2.1 (by decide) (by decide) _).trans ?_
      exact run_number stack hn.2.2.1 hch hdigit rest
    simp only [Spelling.text, List.append_assoc]
    refine (nextDirective_keyword stack 'C'.toUInt8 rfl _).trans ?_
    exact (Format.run_map createDirective stack parseCreate _).trans (congrArg _ hread)
  | reserve event_id coords =>
    have hn := h.numbers
    simp only [Spelling.numbers, List.forall_mem_cons] at hn
    have hseats : ∀ c ∈ coords, Seat c := fun c hc =>
      ⟨hn.2 _ (List.mem_flatMap.2 ⟨c, hc, by simp⟩), hn.2 _ (List.mem_flatMap.2 ⟨c, hc, by simp⟩)⟩
    have hread := parseReserve_spelled stack hn.1 h.sized.1 h.sized.2 hseats hch rest
    have hne : coords.length ≠ 0 := fun h0 => h.sized.1 (List.length_eq_zero_iff.1 h0)
    simp only [Spelling.text, List.append_assoc] at hread ⊢
    refine (nextDirective_keyword stack 'R'.toUInt8 rfl _).trans ?_
    refine (Format.run_map reserveDirective stack (parseReserve MAX_RESERVATION_SIZE) _).trans ?_
    refine (congrArg _ hread).trans ?_
    simp only [Except.map, reserveDirective, hne, if_false, Option.getD_some]
    rfl
  | showEvent event_id =>
    have hread : (parseShow.run stack).run (event_id ++ ch :: rest) =
        .ok (some (numberValue event_id), rest) :=
      run_number stack (h.numbers event_id (by simp [Spelling.numbers])) hch hdigit rest
    simp only [Spelling.text, List.append_assoc]
    refine (nextDirective_keyword stack 'S'.toUInt8 rfl _).trans ?_
    exact (Format.run_map showDirective stack parseShow _).trans (congrArg _ hread)

/-- A readable command that the end of the file ends. -/
theorem nextDirective_spelled_eof {sp : Spelling} (h : sp.Readable) {n : Bytes}
    (hlast : sp.last = some n) {ul : Nat} (hul : strtoul (leftover stack n) = some ul)
    (hlt : ul < 2 ^ 32) :
    (nextDirective stack).run sp.text = .ok (.call (sp.callWith (.ofNat ul)), []) := by
  cases sp with
  | create event_id num_rows num_columns =>
    cases hlast
    have hn := h.numbers
    simp only [Spelling.numbers, List.forall_mem_cons] at hn
    have hread : (parseCreate.run stack).run
        (event_id ++ (ascii " " ++ (num_rows ++ (ascii " " ++ n)))) =
        .ok (some (numberValue event_id, (numberValue num_rows).toUInt64,
          (UInt32.ofNat ul).toUInt64), []) := by
      rw [parseCreate]
      refine (run_number stack hn.1 (by decide) (by decide) _).trans ?_
      refine (run_number stack hn.2.1 (by decide) (by decide) _).trans ?_
      exact run_number_eof stack hn.2.2.1 hul hlt
    simp only [Spelling.text, List.append_assoc]
    refine (nextDirective_keyword stack 'C'.toUInt8 rfl _).trans ?_
    exact (Format.run_map createDirective stack parseCreate _).trans (congrArg _ hread)
  | reserve event_id coords => cases hlast
  | showEvent event_id =>
    cases hlast
    have hread : (parseShow.run stack).run n = .ok (some (.ofNat ul), []) :=
      run_number_eof stack (h.numbers n (by simp [Spelling.numbers])) hul hlt
    refine (nextDirective_keyword stack 'S'.toUInt8 rfl _).trans ?_
    exact (Format.run_map showDirective stack parseShow _).trans (congrArg _ hread)

end

/-! ## The spelling of what has been read -/

section

variable {α : Type} {stack : Stack} {a : α} {s rest : Bytes}

/-- A number in front of the byte `d`. -/
theorem number_of_run {d : UInt8} (hd : d ≠ 0) {failed : Option UInt32 → α}
    {next : UInt32 → UInt8 → Format α} (hfailed : ∀ v, failed v ≠ a)
    (h : ((Format.uint [d] failed next).run stack).run s = .ok (a, rest)) :
    ∃ n t, Number n ∧ s = n ++ d :: t ∧ ((next (numberValue n) d).run stack).run t = .ok (a, rest) := by
  rw [Format.run_uint] at h
  rcases hparse : (parseUint stack).run s with e | ⟨⟨_ | v, ch⟩, t⟩ <;> rw [hparse] at h
  · cases h
  · cases h
    exact absurd rfl (hfailed none)
  · by_cases hch : ch ∈ [d]
    · obtain rfl := List.mem_singleton.1 hch
      simp only [hch, if_true] at h
      obtain ⟨n, rfl, hn, hlen, -, hv⟩ | ⟨-, -, h0, -⟩ := parseUint_ok hparse
      · rw [uintOf] at hv
        split at hv
        · next hsmall =>
          cases hv
          exact ⟨n, t, ⟨hn, hlen, hsmall⟩, rfl, h⟩
        · cases hv
      · exact absurd h0 hd
    · simp only [hch, if_false] at h
      cases h
      exact absurd rfl (hfailed _)

/-- The number at the end of a command. -/
theorem last_of_run {failed : Option UInt32 → α} {g : UInt32 → α} (hfailed : ∀ v, failed v ≠ a)
    (h : ((Format.uint lineEnds failed fun v _ => .done (g v)).run stack).run s = .ok (a, rest)) :
    ∃ n, Number n ∧ ((∃ ch ∈ lineEnds, s = n ++ ch :: rest ∧ a = g (numberValue n)) ∨
      s = n ∧ rest = [] ∧ ∃ ul, strtoul (leftover stack n) = some ul ∧ ul < 2 ^ 32 ∧
        a = g (.ofNat ul)) := by
  rw [Format.run_uint] at h
  rcases hparse : (parseUint stack).run s with e | ⟨⟨_ | v, ch⟩, t⟩ <;> rw [hparse] at h
  · cases h
  · cases h
    exact absurd rfl (hfailed none)
  · by_cases hch : ch ∈ lineEnds
    · simp only [hch, if_true] at h
      cases h
      obtain ⟨n, rfl, hn, hlen, -, hv⟩ | ⟨hn, hlen, -, rfl, hv⟩ := parseUint_ok hparse
      · rw [uintOf] at hv
        split at hv
        · next hsmall =>
          cases hv
          exact ⟨n, ⟨hn, hlen, hsmall⟩, Or.inl ⟨ch, hch, rfl, rfl⟩⟩
        · cases hv
      · rw [parsed] at hv
        cases hul : strtoul (leftover stack s) with
        | none =>
          rw [hul] at hv
          cases hv
        | some ul =>
          rw [hul] at hv
          by_cases hlt : ul < 2 ^ 32
          · simp only [hlt, if_true] at hv
            cases hv
            exact ⟨s, ⟨hn, hlen, (le_strtoul hn hul hlt).trans_lt hlt⟩,
              Or.inr ⟨rfl, rfl, ul, hul, hlt, rfl⟩⟩
          · simp only [hlt, if_false] at hv
            cases hv
    · simp only [hch, if_false] at h
      cases h
      exact absurd rfl (hfailed _)

/-- A byte. -/
theorem byte_of_run {ok : Bytes} {failed : α} {next : UInt8 → Format α} (hfailed : failed ≠ a)
    (h : ((Format.char ok failed next).run stack).run s = .ok (a, rest)) :
    ∃ ch t, ch ∈ ok ∧ s = ch :: t ∧ ((next ch).run stack).run t = .ok (a, rest) := by
  cases s with
  | nil =>
    rw [Format.run_char_nil] at h
    cases h
    exact absurd rfl hfailed
  | cons ch t =>
    rw [Format.run_char_cons] at h
    by_cases hch : ch ∈ ok
    · rw [if_pos hch] at h
      exact ⟨ch, t, hch, rfl, h⟩
    · rw [if_neg hch] at h
      cases h
      exact absurd rfl hfailed

/-- The coordinates that the loop has read. -/
theorem coords_of_run {room k : Nat} {r r' : Reservation} (hk : k ≠ 0)
    (h : ((reserveLoop room r).run stack).run s = .ok ((k, r'), rest)) :
    ∃ coords, coords ≠ [] ∧ coords.length < room ∧ (∀ c ∈ coords, Seat c) ∧
      ∃ ch ∈ lineEnds, s = coordsText coords ++ (ascii "]" ++ ch :: rest) ∧
        r' = coords.foldl Reservation.add r ∧ k = r'.xs.length := by
  have hne : ∀ {r : Reservation}, (0, r) ≠ (k, r') := fun heq => hk (congrArg Prod.fst heq).symm
  induction room generalizing r s with
  | zero =>
    rw [reserveLoop] at h
    cases h
    exact absurd rfl hk
  | succ room ih =>
    rw [reserveLoop] at h
    obtain ⟨ch₁, t₁, hch₁, hs₁, h₁⟩ := byte_of_run hne h
    obtain ⟨x, t₂, hx, hs₂, h₂⟩ := number_of_run (d := ','.toUInt8) (by decide) (fun _ => hne) h₁
    obtain ⟨y, t₃, hy, hs₃, h₃⟩ := number_of_run (d := ')'.toUInt8) (by decide) (fun _ => hne) h₂
    obtain ⟨ch₂, t₄, hch₂, hs₄, h₄⟩ := byte_of_run hne h₃
    obtain rfl : ch₁ = '('.toUInt8 := List.mem_singleton.1 hch₁
    subst hs₁ hs₂ hs₃ hs₄
    dsimp only at h₄
    by_cases hclose : ch₂ = ']'.toUInt8
    · rw [if_pos hclose] at h₄
      by_cases hroom : room = 0
      · rw [if_pos hroom] at h₄
        cases h₄
        exact absurd rfl hk
      · rw [if_neg hroom] at h₄
        obtain ⟨ch, t, hch, rfl, hdone⟩ := byte_of_run hne h₄
        cases hdone
        refine ⟨[(x, y)], List.cons_ne_nil _ _, ?_, ?_, ch, hch, ?_, rfl, rfl⟩
        · simp only [List.length_singleton]
          omega
        · exact fun c hc => by rw [List.mem_singleton.1 hc]; exact ⟨hx, hy⟩
        · simp only [coordsText, hclose, List.append_assoc]
          rfl
    · rw [if_neg hclose] at h₄
      obtain ⟨coords, hcoords, hlen, hseats, ch, hch, rfl, rfl, rfl⟩ := ih h₄
      obtain rfl : ch₂ = ' '.toUInt8 := (List.mem_pair.1 hch₂).resolve_right hclose
      refine ⟨(x, y) :: coords, List.cons_ne_nil _ _, ?_, ?_, ch, hch, ?_, rfl, rfl⟩
      · rw [List.length_cons]
        omega
      · exact List.forall_mem_cons.2 ⟨⟨hx, hy⟩, hseats⟩
      · rw [coordsText_cons (x, y) hcoords]
        simp only [List.append_assoc]
        rfl

/-- A call whose operands have been read. -/
theorem operands_of_call {word : Bytes} {f : Format Directive} {c : Call}
    (h : (Shape.operands word f).run stack s = .ok (.call c, rest)) :
    ∃ t, s = word ++ t ∧ (f.run stack).run t = .ok (.call c, rest) := by
  rw [Shape.run] at h
  split at h
  · next hword =>
    refine ⟨s.drop word.length, ?_, h⟩
    conv_lhs => rw [← List.take_append_drop word.length s, hword]
  · cases h

theorem whole_of_call {word : Bytes} {d : Directive} {c : Call}
    (h : (Shape.whole word d).run stack s = .ok (.call c, rest)) : d = .call c := by
  rw [Shape.run] at h
  split at h
  · have hd := congrArg Prod.fst (Except.ok.inj h)
    cases hs : s.drop word.length with
    | nil => rwa [hs] at hd
    | cons ch t =>
      rw [hs, endLine] at hd
      split at hd
      · exact hd
      · cases hd
  · cases h

end

/-- Reading the spelling gives the call `c` and leaves `rest`. -/
def Spelling.Reads (stack : Stack) (sp : Spelling) (s : Bytes) (c : Call) (rest : Bytes) : Prop :=
  (∃ ch ∈ lineEnds, s = sp.text ++ ch :: rest ∧ c = sp.call) ∨
    s = sp.text ∧ rest = [] ∧ ∃ n ul, sp.last = some n ∧ strtoul (leftover stack n) = some ul ∧
      ul < 2 ^ 32 ∧ c = sp.callWith (.ofNat ul)

section

variable {stack : Stack} {s rest : Bytes} {c : Call}

theorem spelling_of_create
    (h : ((operands .cmdCreate).run stack).run s = .ok (.call c, rest)) :
    ∃ sp : Spelling, sp.Readable ∧ sp.Reads stack (ascii "CREATE " ++ s) c rest := by
  obtain ⟨a, h, hc⟩ := Format.run_map_ok h
  have hne : ∀ v : Option UInt32, (fun _ => none) v ≠ a := fun v ha => by
    subst ha
    cases hc
  rw [parseCreate] at h
  obtain ⟨event_id, t₁, hid, rfl, h₁⟩ := number_of_run (d := ' '.toUInt8) (by decide) hne h
  obtain ⟨num_rows, t₂, hrows, rfl, h₂⟩ := number_of_run (d := ' '.toUInt8) (by decide) hne h₁
  obtain ⟨num_columns, hcols, hread⟩ := last_of_run hne h₂
  have hsplit : ∀ t, ascii "CREATE " ++ (event_id ++ ' '.toUInt8 :: (num_rows ++
      ' '.toUInt8 :: (num_columns ++ t))) =
      (Spelling.create event_id num_rows num_columns).text ++ t := fun t => by
    simp only [Spelling.text, List.append_assoc]
    rfl
  refine ⟨.create event_id num_rows num_columns, ⟨?_, trivial⟩, ?_⟩
  · simpa [Spelling.numbers] using ⟨hid, hrows, hcols⟩
  · obtain ⟨ch, hch, rfl, rfl⟩ | ⟨rfl, rfl, ul, hul, hlt, rfl⟩ := hread
    · cases hc
      exact Or.inl ⟨ch, hch, hsplit _, rfl⟩
    · cases hc
      have heof := hsplit []
      simp only [List.append_nil] at heof
      exact Or.inr ⟨heof, rfl, t₂, ul, rfl, hul, hlt, rfl⟩

theorem spelling_of_reserve
    (h : ((operands .cmdReserve).run stack).run s = .ok (.call c, rest)) :
    ∃ sp : Spelling, sp.Readable ∧ sp.Reads stack (ascii "RESERVE " ++ s) c rest := by
  obtain ⟨⟨k, r⟩, h, hc⟩ := Format.run_map_ok h
  have hk : k ≠ 0 := fun hk => by
    rw [reserveDirective, if_pos hk] at hc
    cases hc
  have hne : ∀ {r' : Reservation}, (0, r') ≠ (k, r) := fun heq => hk (congrArg Prod.fst heq).symm
  rw [parseReserve] at h
  obtain ⟨event_id, t₁, hid, rfl, h₁⟩ := number_of_run (d := ' '.toUInt8) (by decide)
    (fun _ => hne) h
  obtain ⟨ch₁, t₂, hch₁, rfl, h₂⟩ := byte_of_run hne h₁
  obtain rfl : ch₁ = '['.toUInt8 := List.mem_singleton.1 hch₁
  obtain ⟨coords, hcoords, hlen, hseats, ch, hch, rfl, rfl, rfl⟩ := coords_of_run hk h₂
  refine ⟨.reserve event_id coords, ⟨?_, hcoords, hlen⟩, Or.inl ⟨ch, hch, ?_, ?_⟩⟩
  · refine List.forall_mem_cons.2 ⟨hid, fun n hn => ?_⟩
    obtain ⟨p, hp, hn⟩ := List.mem_flatMap.1 hn
    obtain rfl | rfl := by simpa using hn
    · exact (hseats p hp).1
    · exact (hseats p hp).2
  · simp only [Spelling.text, List.append_assoc]
    rfl
  · rw [reserveDirective, if_neg hk, foldl_add] at hc
    cases hc
    simp [Spelling.call, Spelling.callWith]

theorem spelling_of_show
    (h : ((operands .cmdShow).run stack).run s = .ok (.call c, rest)) :
    ∃ sp : Spelling, sp.Readable ∧ sp.Reads stack (ascii "SHOW " ++ s) c rest := by
  obtain ⟨a, h, hc⟩ := Format.run_map_ok h
  have hne : ∀ v : Option UInt32, (fun _ => none) v ≠ a := fun v ha => by
    subst ha
    cases hc
  obtain ⟨event_id, hid, hread⟩ := last_of_run hne h
  refine ⟨.showEvent event_id, ⟨by simpa [Spelling.numbers] using hid, trivial⟩, ?_⟩
  obtain ⟨ch, hch, rfl, rfl⟩ | ⟨rfl, rfl, ul, hul, hlt, rfl⟩ := hread
  · cases hc
    exact Or.inl ⟨ch, hch, by rw [Spelling.text, List.append_assoc], rfl⟩
  · cases hc
    exact Or.inr ⟨rfl, rfl, s, ul, rfl, hul, hlt, rfl⟩

/-- What has been read as a call has a spelling. -/
theorem spelling_of_call (hlist : c ≠ .emsListEvents)
    (h : (nextDirective stack).run s = .ok (.call c, rest)) :
    ∃ sp : Spelling, sp.Readable ∧ sp.Reads stack s c rest := by
  cases s with
  | nil => cases h
  | cons ch s =>
    rw [nextDirective_cons, shapeOf] at h
    split_ifs at h with hC hR hS hL hW hH
    · obtain ⟨t, rfl, h⟩ := operands_of_call h
      exact hC ▸ spelling_of_create h
    · obtain ⟨t, rfl, h⟩ := operands_of_call h
      exact hR ▸ spelling_of_reserve h
    · obtain ⟨t, rfl, h⟩ := operands_of_call h
      exact hS ▸ spelling_of_show h
    · have hd := whole_of_call h
      cases hd
      exact absurd rfl hlist
    · obtain ⟨t, rfl, h⟩ := operands_of_call h
      obtain ⟨a, -, ha⟩ := Format.run_map_ok h
      rw [waitDirective] at ha
      split at ha <;> cases ha
    · have hd := whole_of_call h
      cases hd
    all_goals cases h

end

/-! ## There is only one spelling -/

/-- The two numbers of a seat are digits. -/
def SeatDigits (c : Bytes × Bytes) : Prop := Digits c.1 ∧ Digits c.2

theorem seatText_unique {c c' : Bytes × Bytes} {t t' : Bytes} (h : SeatDigits c) (h' : SeatDigits c')
    (heq : ascii "(" ++ c.1 ++ ascii "," ++ c.2 ++ ascii ")" ++ t =
      ascii "(" ++ c'.1 ++ ascii "," ++ c'.2 ++ ascii ")" ++ t') : c = c' ∧ t = t' := by
  simp only [List.append_assoc] at heq
  obtain ⟨hx, heq⟩ := digits_unique_append h.1 h'.1 (by decide)
    (List.append_cancel_left heq)
  obtain ⟨hy, heq⟩ := digits_unique_append h.2 h'.2 (by decide) heq
  exact ⟨Prod.ext hx hy, heq⟩

theorem coordsText_unique {coords coords' : List (Bytes × Bytes)} {t t' : Bytes}
    (hne : coords ≠ []) (hne' : coords' ≠ []) (h : ∀ c ∈ coords, SeatDigits c)
    (h' : ∀ c ∈ coords', SeatDigits c)
    (heq : coordsText coords ++ (ascii "]" ++ t) = coordsText coords' ++ (ascii "]" ++ t')) :
    coords = coords' ∧ t = t' := by
  induction coords generalizing coords' with
  | nil => exact absurd rfl hne
  | cons c coords ih =>
    cases coords' with
    | nil => exact absurd rfl hne'
    | cons c' coords' =>
      rw [List.forall_mem_cons] at h h'
      by_cases hcoords : coords = [] <;> by_cases hcoords' : coords' = []
      · subst hcoords hcoords'
        obtain ⟨rfl, hcut⟩ := seatText_unique h.1 h'.1 heq
        exact ⟨rfl, List.append_cancel_left hcut⟩
      · subst hcoords
        rw [coordsText_cons c' hcoords'] at heq
        obtain ⟨-, heq⟩ := seatText_unique h.1 h'.1 heq
        exact absurd (List.cons.inj heq).1 (by decide)
      · subst hcoords'
        rw [coordsText_cons c hcoords] at heq
        obtain ⟨-, heq⟩ := seatText_unique h.1 h'.1 heq
        exact absurd (List.cons.inj heq).1 (by decide)
      · rw [coordsText_cons c hcoords, coordsText_cons c' hcoords'] at heq
        obtain ⟨rfl, hcut⟩ := seatText_unique h.1 h'.1 heq
        obtain ⟨rfl, ht⟩ := ih hcoords hcoords' h.2 h'.2 (List.cons.inj hcut).2
        exact ⟨rfl, ht⟩

theorem Spelling.Plain.seats {event_id : Bytes} {coords : List (Bytes × Bytes)}
    (h : (reserve event_id coords).Plain) :
    Digits event_id ∧ coords ≠ [] ∧ ∀ c ∈ coords, SeatDigits c := by
  obtain ⟨hid, hcoords⟩ := List.forall_mem_cons.1 h.digits
  exact ⟨hid, h.listed _ _ rfl, fun c hc => ⟨hcoords _ (List.mem_flatMap.2 ⟨c, hc, by simp⟩),
    hcoords _ (List.mem_flatMap.2 ⟨c, hc, by simp⟩)⟩⟩

/-- Two spellings in front of bytes that are no digits. -/
theorem text_unique {sp sp' : Spelling} (h : sp.Plain) (h' : sp'.Plain) {t t' : Bytes}
    (ht : NoDigit t) (ht' : NoDigit t') (heq : sp.text ++ t = sp'.text ++ t') :
    sp = sp' ∧ t = t' := by
  have hfirst : ∀ {a b : UInt8} {l l' : Bytes}, a :: l = b :: l' → a = b :=
    fun heq => (List.cons.inj heq).1
  cases sp with
  | create event_id num_rows num_columns =>
    cases sp' with
    | create event_id' num_rows' num_columns' =>
      have hn := h.digits
      have hn' := h'.digits
      simp only [Spelling.numbers, List.forall_mem_cons] at hn hn'
      simp only [Spelling.text, List.append_assoc] at heq
      obtain ⟨hid, hrows⟩ := digits_unique_append hn.1 hn'.1 (by decide)
        (List.append_cancel_left heq)
      obtain ⟨hrows, hcols⟩ := digits_unique_append hn.2.1 hn'.2.1 (by decide) hrows
      obtain ⟨hcols, hrest⟩ := digits_unique hn.2.2.1 hn'.2.2.1 ht ht' hcols
      exact ⟨by rw [hid, hrows, hcols], hrest⟩
    | reserve event_id' coords' => exact absurd (hfirst heq) (by decide)
    | showEvent event_id' => exact absurd (hfirst heq) (by decide)
  | reserve event_id coords =>
    cases sp' with
    | create event_id' num_rows' num_columns' => exact absurd (hfirst heq) (by decide)
    | reserve event_id' coords' =>
      obtain ⟨hid, hne, hseats⟩ := h.seats
      obtain ⟨hid', hne', hseats'⟩ := h'.seats
      simp only [Spelling.text, List.append_assoc] at heq
      obtain ⟨hid, hcoords⟩ := digits_unique_append hid hid' (by decide)
        (List.append_cancel_left heq)
      obtain ⟨hcoords, hrest⟩ := coordsText_unique hne hne' hseats hseats' hcoords
      exact ⟨by rw [hid, hcoords], hrest⟩
    | showEvent event_id' => exact absurd (hfirst heq) (by decide)
  | showEvent event_id =>
    cases sp' with
    | create event_id' num_rows' num_columns' => exact absurd (hfirst heq) (by decide)
    | reserve event_id' coords' => exact absurd (hfirst heq) (by decide)
    | showEvent event_id' =>
      simp only [Spelling.text, List.append_assoc] at heq
      obtain ⟨hid, hrest⟩ := digits_unique (h.digits event_id (by simp [Spelling.numbers]))
        (h'.digits event_id' (by simp [Spelling.numbers])) ht ht'
        (List.append_cancel_left heq)
      exact ⟨by rw [hid], hrest⟩

/-! ## The grammar of the README -/

/-- Whatever the parsers accept is a documented line, ended by a newline or the end of the file, and
    means what it says. -/
def AcceptsGrammar (stack : Stack) (s : Bytes) : Prop :=
  ∀ c rest, c ≠ .emsListEvents → (nextDirective stack).run s = .ok (.call c, rest) →
    ∃ sp : Spelling, sp.Documented ∧ (s = sp.text ++ 10 :: rest ∨ s = sp.text ∧ rest = []) ∧
      c = sp.call

/-- The text starts with a command that has an empty number or that a NUL byte ends; or it is a
    command with an empty number, or one whose last number goes on with digits that the stack
    held. -/
def Loose (stack : Stack) (s : Bytes) : Prop :=
  ∃ sp : Spelling, sp.Readable ∧
    ((∃ ch ∈ lineEnds, ∃ rest, s = sp.text ++ ch :: rest ∧ ([] ∈ sp.numbers ∨ ch = 0)) ∨
      s = sp.text ∧ ∃ n ul, sp.last = some n ∧ strtoul (leftover stack n) = some ul ∧
        ul < 2 ^ 32 ∧ ([] ∈ sp.numbers ∨ ul ≠ digitsValue n))

theorem noDigit_lineEnd {ch : UInt8} (hch : ch ∈ lineEnds) (rest : Bytes) : NoDigit (ch :: rest) :=
  noDigit_cons (isDigit_of_mem_lineEnds hch) rest

/-- A loose command is read, and the grammar has no other spelling for it. -/
theorem not_loose_of_acceptsGrammar {stack : Stack} {s : Bytes} (hacc : AcceptsGrammar stack s) :
    ¬ Loose stack s := by
  rintro ⟨sp, hsp, ⟨ch, hch, rest, rfl, hloose⟩ | ⟨rfl, n, ul, hlast, hul, hlt, hloose⟩⟩
  · obtain ⟨sp', hdoc, hs | ⟨hs, -⟩, -⟩ := hacc _ _ (sp.callWith_ne_list _)
      (nextDirective_spelled stack hsp hch rest)
    · obtain ⟨rfl, ht⟩ := text_unique hsp.plain hdoc.toPlain (noDigit_lineEnd hch rest)
        (noDigit_lineEnd (by decide) rest) hs
      obtain ⟨rfl, -⟩ := List.cons.inj ht
      exact hloose.elim hdoc.given (by decide)
    · rw [← List.append_nil sp'.text] at hs
      obtain ⟨-, ht⟩ := text_unique hsp.plain hdoc.toPlain (noDigit_lineEnd hch rest) noDigit_nil hs
      cases ht
  · obtain ⟨sp', hdoc, hs | ⟨hs, -⟩, hcall⟩ := hacc _ _ (sp.callWith_ne_list _)
      (nextDirective_spelled_eof stack hsp hlast hul hlt)
    · rw [← List.append_nil sp.text] at hs
      obtain ⟨-, ht⟩ := text_unique hsp.plain hdoc.toPlain noDigit_nil (noDigit_lineEnd (by decide) _) hs
      cases ht
    · rw [← List.append_nil sp.text, ← List.append_nil sp'.text] at hs
      obtain ⟨rfl, -⟩ := text_unique hsp.plain hdoc.toPlain noDigit_nil noDigit_nil hs
      refine hloose.elim hdoc.given fun hne => hne ?_
      rw [Spelling.call, hlast] at hcall
      have hvalue := congrArg UInt32.toNat (sp.callWith_inj hlast hcall)
      rwa [Option.getD_some, numberValue, UInt32.toNat_ofNat_of_lt' hlt,
        UInt32.toNat_ofNat_of_lt' (hsp.numbers n (sp.last_mem hlast)).small] at hvalue

theorem acceptsGrammar_of_not_loose {stack : Stack} {s : Bytes} (hloose : ¬ Loose stack s) :
    AcceptsGrammar stack s := by
  intro c rest hlist h
  obtain ⟨sp, hsp, ⟨ch, hch, rfl, rfl⟩ | ⟨rfl, rfl, n, ul, hlast, hul, hlt, rfl⟩⟩ :=
    spelling_of_call hlist h
  · have hstrict : [] ∉ sp.numbers ∧ ch ≠ 0 := not_or.1 fun hbad =>
      hloose ⟨sp, hsp, Or.inl ⟨ch, hch, rest, rfl, hbad⟩⟩
    obtain rfl := (mem_lineEnds.1 hch).resolve_right hstrict.2
    exact ⟨sp, hsp.documented hstrict.1, Or.inl rfl, rfl⟩
  · have hstrict : [] ∉ sp.numbers ∧ ¬ ul ≠ digitsValue n := not_or.1 fun hbad =>
      hloose ⟨sp, hsp, Or.inr ⟨rfl, n, ul, hlast, hul, hlt, hbad⟩⟩
    refine ⟨sp, hsp.documented hstrict.1, Or.inr ⟨rfl, rfl⟩, ?_⟩
    rw [Spelling.call, hlast, not_not.1 hstrict.2]
    rfl

/-- **The parsers accept their grammar and nothing else, except for loose commands.** -/
theorem acceptsGrammar_iff (stack : Stack) (s : Bytes) :
    AcceptsGrammar stack s ↔ ¬ Loose stack s :=
  ⟨not_loose_of_acceptsGrammar, acceptsGrammar_of_not_loose⟩

/-- A command without its number is accepted, as the command for event 0. -/
theorem not_acceptsGrammar_show :
    (nextDirective fun _ => .zero 16).run (ascii "SHOW \n") = .ok (.call (.emsShow 0), []) ∧
      ¬ AcceptsGrammar (fun _ => .zero 16) (ascii "SHOW \n") := by
  have hread : (Spelling.showEvent []).Readable :=
    ⟨fun n hn => List.mem_singleton.1 hn ▸ ⟨digits_nil, by decide, by decide⟩, trivial⟩
  refine ⟨nextDirective_spelled _ hread (by decide : 10 ∈ lineEnds) [], fun hacc => ?_⟩
  exact not_loose_of_acceptsGrammar hacc
    ⟨_, hread, Or.inl ⟨10, by decide, [], rfl, Or.inl (by decide)⟩⟩

end EventServer.Client
