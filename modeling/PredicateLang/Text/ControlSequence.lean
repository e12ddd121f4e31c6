/-!
# Control sequences

What is reported to a terminal is freed of control characters, so that no text
can steer it. Tabs and the characters that break lines remain. An escape
character starts a sequence, which is left out up to its end. Where a tab or
break inside a sequence is shown, the text after it is shown as well, and the
sequence goes on at the next character that is not.
-/

namespace PredicateLang.Text

/-- Where a text stands in a control sequence. -/
inductive ControlSequence where
  /-- Outside all sequences. -/
  | outside
  /-- After the escape character. -/
  | escape
  /-- In an escape sequence of several characters. -/
  | intermediate
  /-- In a sequence with parameters. -/
  | parameters
  /-- In an operating system command. -/
  | command
  /-- In the introduction of a device control string. -/
  | device
  /-- Among the parameters of a device control string. -/
  | deviceParameters
  /-- Behind the parameters of a device control string. -/
  | deviceIntermediate
  /-- In a string that only its terminator ends. -/
  | string
  deriving Repr, DecidableEq

/-- Tabs and the characters that break lines. -/
def isBreak (c : Char) : Bool :=
  c == '\t' || c == '\n' || c == '\x0c' || c == '\r'

/-- Whether a character outside all sequences is shown. -/
def isShown (c : Char) : Bool :=
  isBreak c || (decide (' ' ≤ c) && c != '\x7f')

/-- Whether `c` is one of the characters from `low` to `high`. -/
def isBetween (low high c : Char) : Bool :=
  decide (low ≤ c) && decide (c ≤ high)

namespace ControlSequence

/-- Whether a character has the string terminator among its bytes. -/
def hasTerminator (c : Char) : Bool :=
  (String.utf8EncodeChar c).contains 0x9C

/-- Whether a character is shown that a sequence is read with. -/
def shows : ControlSequence → Char → Bool
  | .outside, c => isShown c
  | .escape, c | .intermediate, c | .parameters, c => isBreak c
  | _, _ => false

/-- What follows the escape character. -/
def afterEscape (c : Char) : ControlSequence :=
  if isBetween ' ' '/' c then .intermediate
  else if c = '[' then .parameters
  else if c = ']' then .command
  else if c = 'P' then .device
  else if c = 'X' ∨ c = '^' ∨ c = '_' then .string
  else if isBetween '0' '~' c then .outside
  else .escape

/-- Where a text stands after a character that is not shown. Cancel and substitute end every
sequence, and the escape character starts a new one. -/
def next (s : ControlSequence) (c : Char) : ControlSequence :=
  if c = '\x18' ∨ c = '\x1a' then .outside
  else if c = '\x1b' then .escape
  else match s with
  | .outside => .outside
  | .escape => afterEscape c
  | .intermediate => if isBetween '0' '~' c then .outside else s
  | .parameters => if isBetween '@' '~' c then .outside else s
  | .command => if c = '\x07' then .outside else s
  | .device =>
    if isBetween ' ' '/' c then .deviceIntermediate
    else if isBetween '0' '?' c then .deviceParameters
    else if isBetween '@' '~' c then .string
    else s
  | .deviceParameters =>
    if isBetween ' ' '/' c then .deviceIntermediate
    else if isBetween '<' '~' c then .string
    else s
  | .deviceIntermediate => if isBetween '0' '~' c then .string else s
  | .string => if hasTerminator c then .outside else s

/-- Where a text stands after a character that is shown. Only ASCII leaves a sequence open. -/
def afterShown (s : ControlSequence) (c : Char) : ControlSequence :=
  if c.toNat < 0x80 then s else .outside

/-- The shown characters of a text. A sequence is interrupted while characters are shown that
are not its own. -/
def visibleFrom (s : ControlSequence) (interrupted : Bool) : List Char → List Char
  | [] => []
  | c :: cs =>
    if (if interrupted then isShown c else s.shows c) then
      c :: visibleFrom (s.afterShown c) true cs
    else visibleFrom (s.next c) false cs

theorem isShown_of_shows {s : ControlSequence} {c : Char} (h : s.shows c = true) :
    isShown c = true := by
  cases s <;> simp_all [shows, isShown]

end ControlSequence

/-- The characters of a text that are shown on a terminal. -/
def visible (text : List Char) : List Char :=
  ControlSequence.visibleFrom .outside false text

/-- Nothing else than shown characters is left. -/
theorem isShown_of_mem_visibleFrom {s : ControlSequence} {interrupted : Bool} {text : List Char}
    {c : Char} (h : c ∈ s.visibleFrom interrupted text) : isShown c = true := by
  fun_induction ControlSequence.visibleFrom s interrupted text with
  | case1 => simp at h
  | case2 s interrupted d text hd ih =>
    obtain rfl | h := List.mem_cons.1 h
    · cases interrupted
      · exact ControlSequence.isShown_of_shows (by simpa using hd)
      · simpa using hd
    · exact ih h
  | case3 s interrupted d text hd ih => exact ih h

/-- A text of shown characters is left as it is. -/
theorem visible_eq_self {text : List Char} (h : ∀ c ∈ text, isShown c = true) :
    visible text = text := by
  have key : ∀ interrupted, ControlSequence.visibleFrom .outside interrupted text = text := by
    induction text with
    | nil => intro _; rfl
    | cons c text ih =>
      intro interrupted
      have hc := h c List.mem_cons_self
      have ih := ih (fun d hd => h d (List.mem_cons_of_mem c hd)) true
      rw [ControlSequence.visibleFrom]
      simp [ControlSequence.shows, ControlSequence.afterShown, hc, ih]
  exact key false

end PredicateLang.Text
