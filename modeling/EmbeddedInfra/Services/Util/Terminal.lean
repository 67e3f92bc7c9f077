import EmbeddedInfra.Lib.EventSystem

set_option autoImplicit false

/-! # The terminal

`services::Terminal` edits a line of text. What is typed comes in byte by byte from a serial port; for
every byte the terminal changes its line and sends what changes the line on the screen in the same way.
Here the screen is a line of cells that is written to at a cursor.
-/

namespace EmbeddedInfra.Terminal

/-! ## The screen -/

def blank : UInt8 := 0x20
def bell : UInt8 := 0x07
def backspace : UInt8 := 0x08
def lineFeed : UInt8 := 0x0a
def carriageReturn : UInt8 := 0x0d

/-- A line of the screen, which is blank where nothing was written, and the column of the cursor. -/
structure Screen where
  line : Nat → UInt8 := fun _ => blank
  column : Nat := 0

namespace Screen

/-- A line feed leads to a new line. -/
def put (s : Screen) (byte : UInt8) : Screen :=
  if byte = bell then s
  else if byte = backspace then { s with column := s.column - 1 }
  else if byte = carriageReturn then { s with column := 0 }
  else if byte = lineFeed then { s with line := fun _ => blank }
  else { line := Function.update s.line s.column byte, column := s.column + 1 }

def write (s : Screen) (bytes : List UInt8) : Screen := bytes.foldl put s

end Screen

/-! ## The terminal -/

/-- `Terminal` with the screen at the other end of its serial port. `asserted` says that an assertion has
failed; `onData` has all lines that `OnData` was called with. -/
structure Session where
  processingEscapeSequence : Bool := false
  cursorPosition : Nat := 0
  historyIndex : Nat := 0
  buffer : List UInt8 := []
  history : List (List UInt8) := []
  sendDone : Bool := true
  asserted : Bool := false
  onData : List (List UInt8) := []
  screen : Screen := {}

/-- `"> "` -/
def prompt : List UInt8 := [0x3e, 0x20]

/-- The capacity of the buffer. -/
def maxSize : Nat := 256

/-- The capacity of the history. -/
def maxHistory : Nat := 4

namespace Session

/-- `communication.SendData(data, infra::emptyFunction)` -/
def sendData (s : Session) (data : List UInt8) : Session := { s with screen := s.screen.write data }

/-- `Print`. The serial port is done with what is sent at once, or only after the byte has been handled;
until it is done, nothing more is printed. -/
def print (s : Session) (atOnce : Bool) (message : List UInt8) : Session :=
  if s.sendDone then { s.sendData message with sendDone := atOnce } else s

def sendBell (s : Session) : Session := s.sendData [bell]

def moveCursorHome (s : Session) (atOnce : Bool) : Session :=
  ({ s with cursorPosition := 0 }.sendData [carriageReturn]).print atOnce prompt

def moveCursorEnd (s : Session) : Session :=
  let s := if 0 < s.buffer.length ∧ s.cursorPosition < s.buffer.length
    then s.sendData (s.buffer.drop s.cursorPosition) else s
  { s with cursorPosition := s.buffer.length }

def moveCursorLeft (s : Session) : Session :=
  if 0 < s.cursorPosition then { s.sendData [backspace] with cursorPosition := s.cursorPosition - 1 }
  else s.sendBell

def moveCursorRight (s : Session) : Session :=
  if s.cursorPosition < s.buffer.length then
    { s.sendData [s.buffer.getD s.cursorPosition 0] with cursorPosition := s.cursorPosition + 1 }
  else s.sendBell

/-- The first part of `EraseCharacterUnderCursor`: the characters after the cursor move to the left. -/
def moveRestLeft (s : Session) : Session :=
  if s.buffer.length = s.cursorPosition + 1 then { s with buffer := s.buffer.dropLast }
  else
    let rotated := s.buffer.take s.cursorPosition ++ (s.buffer.drop s.cursorPosition).rotate 1
    let buffer := rotated.take (s.buffer.length - 1)
    { s with buffer := buffer }.sendData (buffer.drop s.cursorPosition)

/-- `EraseCharacterUnderCursor`; the backspaces of its loop are sent one by one. -/
def eraseCharacterUnderCursor (s : Session) (atOnce : Bool) : Session :=
  let s := s.moveRestLeft.print atOnce [blank, backspace]
  s.sendData (List.replicate (s.buffer.length - s.cursorPosition) backspace)

def processDelete (s : Session) (atOnce : Bool) : Session :=
  if s.cursorPosition < s.buffer.length then s.eraseCharacterUnderCursor atOnce else s.sendBell

def processBackspace (s : Session) (atOnce : Bool) : Session := s.moveCursorLeft.processDelete atOnce

def storeHistory (s : Session) : Session :=
  let history := (if s.history.length = maxHistory then s.history.tail else s.history) ++ [s.buffer]
  { s with history := history, historyIndex := history.length }

/-- `OnData` is called with a line that is not empty. -/
def handOver (s : Session) : Session :=
  if 0 < s.buffer.length then { s.storeHistory with onData := s.onData ++ [s.buffer] } else s

def processEnter (s : Session) (atOnce : Bool) : Session :=
  let s := (s.print atOnce [carriageReturn, lineFeed]).handOver
  { s with buffer := [], cursorPosition := 0 }.print atOnce prompt

def sendBuffer (s : Session) : Session := if 0 < s.buffer.length then s.sendData s.buffer else s

/-- `OverwriteBuffer`; the blanks and backspaces of its loops are sent one by one. -/
def overwriteBuffer (s : Session) (atOnce : Bool) (element : List UInt8) : Session :=
  let previousSize := s.buffer.length
  let s := { s with buffer := element }
  let s := ((s.sendData [carriageReturn]).print atOnce prompt).sendBuffer
  let s := s.sendData (List.replicate (previousSize - s.buffer.length) blank)
  let s := s.sendData (List.replicate (previousSize - s.buffer.length) backspace)
  { s with cursorPosition := s.buffer.length }

def historyForward (s : Session) (atOnce : Bool) : Session :=
  if s.history ≠ [] ∧ s.historyIndex < s.history.length - 1 then
    { s with historyIndex := s.historyIndex + 1 }.overwriteBuffer atOnce
      (s.history.getD (s.historyIndex + 1) [])
  else s.overwriteBuffer atOnce []

def historyBackward (s : Session) (atOnce : Bool) : Session :=
  if 0 < s.historyIndex then
    { s with historyIndex := s.historyIndex - 1 }.overwriteBuffer atOnce
      (s.history.getD (s.historyIndex - 1) [])
  else s.sendBell

/-- The character is sent to the screen and kept. -/
def Printable (c : UInt8) : Prop := 31 < c ∧ c < 127

instance (c : UInt8) : Decidable (Printable c) := inferInstanceAs (Decidable (_ ∧ _))

/-- `push_back` asserts that the buffer is not full. -/
def sendNonEscapeChar (s : Session) (c : UInt8) : Session :=
  if Printable c then
    let s := s.sendData [c]
    if s.buffer.length = maxSize then { s with asserted := true }
    else { s with buffer := s.buffer ++ [c], cursorPosition := s.cursorPosition + 1 }
  else s.sendBell

/-- `";[O0123456789"` -/
def ignoredEscapeCharacters : List UInt8 :=
  [0x3b, 0x5b, 0x4f, 0x30, 0x31, 0x32, 0x33, 0x34, 0x35, 0x36, 0x37, 0x38, 0x39]

/-- `ProcessEscapeSequence`, and whether the sequence goes on. -/
def processEscapeSequence (s : Session) (atOnce : Bool) (c : UInt8) : Session × Bool :=
  if c ∈ ignoredEscapeCharacters then (s, true)
  else if c = 0x41 then (s.historyBackward atOnce, false)
  else if c = 0x42 then (s.historyForward atOnce, false)
  else if c = 0x43 then (s.moveCursorRight, false)
  else if c = 0x44 then (s.moveCursorLeft, false)
  else if c = 0x46 then (s.moveCursorEnd, false)
  else if c = 0x48 then (s.moveCursorHome atOnce, false)
  else (s.sendBell, false)

/-- The two characters for a backspace. -/
def IsBackspace (c : UInt8) : Prop := c = backspace ∨ c = 0x7f

instance (c : UInt8) : Decidable (IsBackspace c) := inferInstanceAs (Decidable (_ ∨ _))

def handleNonEscapeChar (s : Session) (atOnce : Bool) (c : UInt8) : Session :=
  if c = lineFeed then s
  else if c = carriageReturn then s.processEnter atOnce
  else if c = 27 then { s with processingEscapeSequence := true }
  else if IsBackspace c then s.processBackspace atOnce
  else if c = 1 then s.moveCursorHome atOnce
  else if c = 2 then s.moveCursorLeft
  else if c = 3 then s.overwriteBuffer atOnce []
  else if c = 4 then s.processDelete atOnce
  else if c = 5 then s.moveCursorEnd
  else if c = 6 then s.moveCursorRight
  else if c = 14 then s.historyForward atOnce
  else if c = 16 then s.historyBackward atOnce
  else s.sendNonEscapeChar c

def handleChar (s : Session) (atOnce : Bool) (c : UInt8) : Session :=
  if s.processingEscapeSequence then
    let (s, more) := s.processEscapeSequence atOnce c
    { s with processingEscapeSequence := more }
  else s.handleNonEscapeChar atOnce c

end Session

/-- After the constructor, with the prompt on the screen. -/
def start : Session := { screen := Screen.write {} prompt }

/-! ## What is written on a line -/

/-- A line with this text. -/
def text (t : List UInt8) : Nat → UInt8 := fun i => t.getD i blank

theorem text_append_blank (t : List UInt8) (n : Nat) : text (t ++ List.replicate n blank) = text t := by
  funext i
  simp only [text, List.getD_eq_getElem?_getD, List.getElem?_append, List.getElem?_replicate]
  split_ifs with hi hn
  · rfl
  · rw [List.getElem?_eq_none (by omega)]
    rfl
  · rw [List.getElem?_eq_none (by omega)]

theorem mk_text_eq {t t' : List UInt8} {k k' : Nat} (ht : t = t') (hk : k = k') :
    Screen.mk (text t) k = ⟨text t', k'⟩ := by
  rw [ht, hk]

theorem text_nil : text [] = fun _ => blank := by
  funext i
  simp [text]

namespace Screen

theorem put_printable {c : UInt8} (hc : Session.Printable c) (s : Screen) :
    s.put c = { line := Function.update s.line s.column c, column := s.column + 1 } := by
  have hne : c ≠ bell ∧ c ≠ backspace ∧ c ≠ carriageReturn ∧ c ≠ lineFeed := by
    have h31 := hc.1
    refine ⟨?_, ?_, ?_, ?_⟩ <;>
      · rintro rfl
        exact absurd h31 (by decide)
  rw [put, if_neg hne.1, if_neg hne.2.1, if_neg hne.2.2.1, if_neg hne.2.2.2]

/-- A character is written over the one at the cursor. -/
theorem update_text {t : List UInt8} {k : Nat} (hk : k ≤ t.length) (c : UInt8) :
    Function.update (text t) k c = text (t.take k ++ c :: t.drop (k + 1)) := by
  funext i
  have hlength : (t.take k).length = k := by
    rw [List.length_take]
    omega
  simp only [text, List.getD_eq_getElem?_getD, Function.update_apply]
  rcases Nat.lt_trichotomy i k with hi | rfl | hi
  · rw [if_neg (by omega), List.getElem?_append_left (by omega), List.getElem?_take_of_lt hi]
  · rw [if_pos rfl, List.getElem?_append_right (by omega), hlength, Nat.sub_self]
    rfl
  · obtain ⟨d, hd⟩ : ∃ d, i - k = d + 1 := ⟨i - k - 1, by omega⟩
    rw [if_neg (by omega), List.getElem?_append_right (by omega), hlength, hd, List.getElem?_cons_succ,
      List.getElem?_drop]
    congr 2
    omega

/-- **Characters are written over those from the cursor on.** -/
theorem write_text {t w : List UInt8} {k : Nat} (hk : k ≤ t.length) (hw : ∀ c ∈ w, Session.Printable c) :
    (Screen.mk (text t) k).write w = ⟨text (t.take k ++ w ++ t.drop (k + w.length)), k + w.length⟩ := by
  induction w generalizing t k with
  | nil => simp [write]
  | cons c w ih =>
      have hlength : (t.take k).length = k := by
        rw [List.length_take]
        omega
      have hput : (Screen.mk (text t) k).put c = ⟨text (t.take k ++ c :: t.drop (k + 1)), k + 1⟩ := by
        rw [put_printable (hw c List.mem_cons_self), update_text hk]
      have hrest := @ih (t.take k ++ c :: t.drop (k + 1)) (k + 1) (by simp; omega)
        (fun x hx => hw x (List.mem_cons_of_mem c hx))
      rw [write, List.foldl_cons, hput]
      refine hrest.trans ?_
      have htake : (t.take k ++ c :: t.drop (k + 1)).take (k + 1) = t.take k ++ [c] := by
        rw [List.take_append, hlength, List.take_of_length_le (by omega)]
        simp
      have hdrop : (t.take k ++ c :: t.drop (k + 1)).drop (k + 1 + w.length) = t.drop (k + 1 + w.length) := by
        rw [List.drop_append, hlength, List.drop_eq_nil_of_le (by omega),
          show k + 1 + w.length - k = w.length + 1 by omega, List.nil_append, List.drop_succ_cons, List.drop_drop]
      rw [htake, hdrop, List.length_cons]
      congr 1
      · simp [Nat.add_assoc, Nat.add_comm 1]
      · omega

theorem write_backspaces (line : Nat → UInt8) (k n : Nat) :
    (Screen.mk line k).write (List.replicate n backspace) = ⟨line, k - n⟩ := by
  induction n generalizing k with
  | zero => rfl
  | succ n ih =>
      have hput : (Screen.mk line k).put backspace = ⟨line, k - 1⟩ := rfl
      rw [List.replicate_succ, write, List.foldl_cons, hput]
      refine (ih (k - 1)).trans ?_
      rw [Nat.sub_sub, Nat.add_comm]

end Screen

/-! ## The screen shows the line -/

namespace Session

/-- A line that can be in the buffer. -/
def Line (line : List UInt8) : Prop := line.length ≤ maxSize ∧ ∀ c ∈ line, Printable c

/-- The screen shows the prompt and the buffer, and the cursor is where the terminal takes it to be. -/
structure Shown (s : Session) : Prop where
  screen : s.screen = ⟨text (prompt ++ s.buffer), prompt.length + s.cursorPosition⟩
  cursor : s.cursorPosition ≤ s.buffer.length
  line : Line s.buffer
  history : ∀ line ∈ s.history, Line line
  historyIndex : s.historyIndex ≤ s.history.length
  asserted : s.asserted = false

/-- A step that leaves the line on the screen right, and calls nobody. -/
structure Keeps (s s' : Session) : Prop where
  shown : Shown s'
  onData : s'.onData = s.onData

theorem printable_blank : Printable blank := by decide

theorem printable_prompt : ∀ c ∈ prompt, Printable c := by
  intro c hc
  rcases List.mem_cons.mp hc with rfl | hc
  · decide
  · rw [List.mem_singleton.mp hc]
    exact printable_blank

theorem line_nil : Line [] := ⟨Nat.zero_le _, by simp⟩

@[simp] theorem sendData_buffer (s : Session) (data : List UInt8) : (s.sendData data).buffer = s.buffer := rfl

theorem print_eq {s : Session} (h : s.sendDone = true) (atOnce : Bool) (message : List UInt8) :
    s.print atOnce message = { s.sendData message with sendDone := atOnce } := if_pos h

variable {s : Session} (atOnce : Bool)

theorem Keeps.ite {p : Prop} [Decidable p] {a b : Session} (ha : p → Keeps s a) (hb : ¬ p → Keeps s b) :
    Keeps s (if p then a else b) := by
  split_ifs with hp
  · exact ha hp
  · exact hb hp

theorem Shown.sendBell (h : Shown s) : Keeps s s.sendBell :=
  ⟨{ h with }, rfl⟩

/-- Writing over the line from the cursor on. -/
theorem Shown.write (h : Shown s) {w : List UInt8} (hw : ∀ c ∈ w, Printable c) :
    s.screen.write w = ⟨text (prompt ++ (s.buffer.take s.cursorPosition ++ w ++
      s.buffer.drop (s.cursorPosition + w.length))), prompt.length + s.cursorPosition + w.length⟩ := by
  have hcursor := h.cursor
  rw [h.screen, Screen.write_text (by simp; omega) hw]
  congr 2
  rw [List.take_append, List.drop_append, List.take_of_length_le (by omega),
    List.drop_eq_nil_of_le (by omega)]
  simp only [Nat.add_sub_cancel_left, List.nil_append, List.append_assoc,
    show prompt.length + s.cursorPosition + w.length - prompt.length = s.cursorPosition + w.length by omega]

theorem Shown.moveCursorLeft (h : Shown s) : Keeps s s.moveCursorLeft := by
  rw [Session.moveCursorLeft]
  split_ifs with hpos
  · refine ⟨{ h with screen := ?_, cursor := ?_ }, rfl⟩
    · have hcursor := h.cursor
      refine (congrArg (Screen.write · [backspace]) h.screen).trans ?_
      refine (Screen.write_backspaces _ _ 1).trans ?_
      simp only [sendData_buffer, Nat.add_sub_assoc hpos]
    · exact (Nat.sub_le _ _).trans h.cursor
  · exact h.sendBell

theorem Shown.moveCursorRight (h : Shown s) : Keeps s s.moveCursorRight := by
  rw [Session.moveCursorRight]
  split_ifs with hlt
  · have hget : s.buffer.getD s.cursorPosition 0 = s.buffer[s.cursorPosition] := by
      rw [List.getD_eq_getElem?_getD, List.getElem?_eq_getElem hlt]
      rfl
    refine ⟨{ h with screen := ?_, cursor := hlt }, rfl⟩
    refine (h.write (w := [s.buffer.getD s.cursorPosition 0]) ?_).trans (mk_text_eq ?_ rfl)
    · rw [hget]
      simpa using h.line.2 _ (List.getElem_mem hlt)
    · rw [hget]
      simp
  · exact h.sendBell

theorem Shown.moveCursorEnd (h : Shown s) : Keeps s s.moveCursorEnd := by
  have hcursor := h.cursor
  simp only [Session.moveCursorEnd]
  split_ifs with hlt
  · refine ⟨{ h with screen := ?_, cursor := le_refl _ }, rfl⟩
    refine (h.write (w := s.buffer.drop s.cursorPosition) ?_).trans (mk_text_eq ?_ ?_)
    · intro c hc
      exact h.line.2 c (List.mem_of_mem_drop hc)
    · rw [List.length_drop, List.take_append_drop, List.drop_eq_nil_of_le (by omega), List.append_nil]
      rfl
    · rw [List.length_drop]
      dsimp only [sendData_buffer]
      omega
  · have heq : s.cursorPosition = s.buffer.length := by omega
    refine ⟨{ h with screen := ?_, cursor := le_refl _ }, rfl⟩
    rw [← heq]
    exact h.screen

/-- The prompt is written again. -/
theorem Shown.home (h : Shown s) :
    (s.screen.write [carriageReturn]).write prompt = ⟨text (prompt ++ s.buffer), prompt.length⟩ := by
  have hreturn : s.screen.write [carriageReturn] = ⟨text (prompt ++ s.buffer), 0⟩ := by
    rw [h.screen]
    rfl
  rw [hreturn, Screen.write_text (Nat.zero_le _) printable_prompt]
  simp

theorem Shown.moveCursorHome (h : Shown s) (hdone : s.sendDone = true) : Keeps s (s.moveCursorHome atOnce) := by
  rw [Session.moveCursorHome, print_eq (by exact hdone)]
  exact ⟨{ h with screen := h.home, cursor := Nat.zero_le _ }, rfl⟩

/-- The character behind the end of a text is wiped out. -/
theorem wipe (t : List UInt8) (c : UInt8) :
    (Screen.mk (text (t ++ [c])) t.length).write [blank, backspace] = ⟨text t, t.length⟩ := by
  have hblank : (Screen.mk (text (t ++ [c])) t.length).write [blank] = ⟨text t, t.length + 1⟩ := by
    rw [Screen.write_text (by simp) (by simpa using printable_blank), ← text_append_blank t 1]
    refine mk_text_eq ?_ rfl
    simp
  calc (Screen.mk (text (t ++ [c])) t.length).write [blank, backspace]
    _ = ((Screen.mk (text (t ++ [c])) t.length).write [blank]).put backspace := rfl
    _ = ⟨text t, t.length⟩ := by
      rw [hblank]
      rfl

/-- The buffer without the character under the cursor. -/
def erased (s : Session) : List UInt8 := s.buffer.take s.cursorPosition ++ s.buffer.drop (s.cursorPosition + 1)

theorem length_erased (h : s.cursorPosition < s.buffer.length) : s.erased.length + 1 = s.buffer.length := by
  simp only [erased, List.length_append, List.length_take, List.length_drop]
  omega

/-- The rotation takes the character to the end of the buffer. -/
theorem rotated_eq (h : s.cursorPosition < s.buffer.length) :
    s.buffer.take s.cursorPosition ++ (s.buffer.drop s.cursorPosition).rotate 1 =
      s.erased ++ [s.buffer[s.cursorPosition]] := by
  rw [List.drop_eq_getElem_cons h, List.rotate_cons_succ, List.rotate_zero, erased, List.append_assoc]

theorem line_erased (h : Shown s) : Line s.erased := by
  constructor
  · have hsize := h.line.1
    simp only [erased, List.length_append, List.length_take, List.length_drop]
    omega
  · intro c hc
    rcases List.mem_append.mp hc with hc | hc
    · exact h.line.2 c (List.mem_of_mem_take hc)
    · exact h.line.2 c (List.mem_of_mem_drop hc)

theorem moveRestLeft_eq (h : Shown s) (hlt : s.cursorPosition < s.buffer.length) :
    ∃ c, s.moveRestLeft = { s with
      buffer := s.erased, screen := ⟨text (prompt ++ s.erased ++ [c]), (prompt ++ s.erased).length⟩ } := by
  have hlength := length_erased hlt
  rw [moveRestLeft]
  split_ifs with hend
  · -- the last character of the line
    have herased : s.erased = s.buffer.dropLast := by
      rw [erased, List.drop_eq_nil_of_le (by omega), List.append_nil, List.dropLast_eq_take]
      congr 1
      omega
    have hne : s.buffer ≠ [] := List.ne_nil_of_length_pos (by omega)
    refine ⟨s.buffer.getLast hne, ?_⟩
    rw [herased, List.append_assoc, List.dropLast_append_getLast]
    have hscreen : s.screen = ⟨text (prompt ++ s.buffer), (prompt ++ s.buffer.dropLast).length⟩ := by
      rw [h.screen]
      refine mk_text_eq rfl ?_
      rw [List.length_append, List.length_dropLast]
      omega
    rw [← hscreen]
  · have hbuffer : (s.erased ++ [s.buffer[s.cursorPosition]]).take (s.buffer.length - 1) = s.erased := by
      rw [List.take_append_of_le_length (by omega), List.take_of_length_le (by omega)]
    have hdrop : s.erased.drop s.cursorPosition = s.buffer.drop (s.cursorPosition + 1) := by
      rw [erased, List.drop_left' (by rw [List.length_take]; omega)]
    dsimp only
    rw [rotated_eq hlt, hbuffer, hdrop, sendData]
    have hne : s.buffer ≠ [] := List.ne_nil_of_length_pos (by omega)
    refine ⟨s.buffer.getLast hne, ?_⟩
    have hwrite : s.screen.write (s.buffer.drop (s.cursorPosition + 1)) =
        ⟨text (prompt ++ s.erased ++ [s.buffer.getLast hne]), (prompt ++ s.erased).length⟩ := by
      refine (h.write (fun c hc => h.line.2 c (List.mem_of_mem_drop hc))).trans (mk_text_eq ?_ ?_)
      · -- of what was there, only the last character is left
        have hlast : s.cursorPosition + (s.buffer.drop (s.cursorPosition + 1)).length = s.buffer.length - 1 := by
          rw [List.length_drop]
          omega
        rw [hlast, List.drop_length_sub_one hne, erased, List.append_assoc, List.append_assoc]
        simp
      · rw [List.length_append, List.length_drop]
        omega
    rw [hwrite]

/-- **A character is erased**, and those after it move to the left. -/
theorem Shown.eraseCharacterUnderCursor (h : Shown s) (hdone : s.sendDone = true)
    (hlt : s.cursorPosition < s.buffer.length) :
    Keeps s (s.eraseCharacterUnderCursor atOnce) ∧ (s.eraseCharacterUnderCursor atOnce).buffer = s.erased := by
  have hlength := length_erased hlt
  obtain ⟨c, hleft⟩ := moveRestLeft_eq h hlt
  have hprint : s.moveRestLeft.print atOnce [blank, backspace] = { s with
      buffer := s.erased, screen := ⟨text (prompt ++ s.erased), (prompt ++ s.erased).length⟩, sendDone := atOnce } := by
    rw [hleft, print_eq (by exact hdone), sendData, wipe]
  rw [Session.eraseCharacterUnderCursor, hprint]
  refine ⟨⟨⟨?_, ?_, line_erased h, h.history, h.historyIndex, h.asserted⟩, rfl⟩, rfl⟩
  · refine (Screen.write_backspaces _ _ _).trans (mk_text_eq rfl ?_)
    simp only [List.length_append, sendData]
    omega
  · simp only [sendData]
    omega

theorem Shown.processDelete (h : Shown s) (hdone : s.sendDone = true) : Keeps s (s.processDelete atOnce) := by
  rw [Session.processDelete]
  split_ifs with hlt
  · exact (h.eraseCharacterUnderCursor atOnce hdone hlt).1
  · exact h.sendBell

theorem printable_blanks (n : Nat) : ∀ c ∈ List.replicate n blank, Printable c := by
  intro c hc
  rw [List.eq_of_mem_replicate hc]
  exact printable_blank

theorem sendBuffer_eq (s : Session) : s.sendBuffer = s.sendData s.buffer := by
  rw [sendBuffer]
  split_ifs with hpos
  · rfl
  · rw [List.length_eq_zero_iff.mp (Nat.eq_zero_of_not_pos hpos)]
    rfl

/-- **Another line takes the place of the buffer**, and blanks the place of what it does not cover. -/
theorem Shown.overwriteBuffer (h : Shown s) (hdone : s.sendDone = true) {element : List UInt8} (helement : Line element) :
    Keeps s (s.overwriteBuffer atOnce element) := by
  have hprint : ({ s with buffer := element }.sendData [carriageReturn]).print atOnce prompt = { s with
      buffer := element, screen := ⟨text (prompt ++ s.buffer), prompt.length⟩, sendDone := atOnce } := by
    rw [print_eq (by exact hdone), sendData, sendData, h.home]
  have helementWritten : (Screen.mk (text (prompt ++ s.buffer)) prompt.length).write element =
      ⟨text (prompt ++ element ++ s.buffer.drop element.length), (prompt ++ element).length⟩ := by
    rw [Screen.write_text (by simp) helement.2]
    refine mk_text_eq ?_ (List.length_append ..).symm
    rw [List.take_left' rfl, ← List.drop_drop, List.drop_left' rfl]
  have hblanks : (Screen.mk (text (prompt ++ element ++ s.buffer.drop element.length)) (prompt ++ element).length).write
      (List.replicate (s.buffer.length - element.length) blank) =
      ⟨text (prompt ++ element), (prompt ++ element).length + (s.buffer.length - element.length)⟩ := by
    rw [Screen.write_text (by simp) (printable_blanks _), List.length_replicate,
      ← text_append_blank (prompt ++ element) (s.buffer.length - element.length)]
    refine mk_text_eq ?_ rfl
    rw [List.take_left' rfl, ← List.drop_drop, List.drop_left' rfl, List.drop_drop,
      List.drop_eq_nil_of_le (by omega), List.append_nil]
  rw [Session.overwriteBuffer]
  simp only [hprint, sendBuffer_eq]
  refine ⟨⟨?_, le_refl _, helement, h.history, h.historyIndex, h.asserted⟩, rfl⟩
  simp only [sendData, helementWritten, hblanks, Screen.write_backspaces]
  refine mk_text_eq rfl ?_
  rw [List.length_append]
  omega

theorem Shown.line_history (h : Shown s) {i : Nat} (hi : i < s.history.length) : Line (s.history.getD i []) := by
  rw [List.getD_eq_getElem?_getD, List.getElem?_eq_getElem hi]
  exact h.history _ (List.getElem_mem hi)

theorem Shown.historyForward (h : Shown s) (hdone : s.sendDone = true) : Keeps s (s.historyForward atOnce) := by
  rw [Session.historyForward]
  split_ifs with hmore
  · have hnext : Shown { s with historyIndex := s.historyIndex + 1 } :=
      { h with historyIndex := by dsimp only; omega }
    obtain ⟨hshown, hdata⟩ := hnext.overwriteBuffer atOnce hdone
      (h.line_history (i := s.historyIndex + 1) (by omega))
    exact ⟨hshown, hdata⟩
  · exact h.overwriteBuffer atOnce hdone line_nil

theorem Shown.historyBackward (h : Shown s) (hdone : s.sendDone = true) : Keeps s (s.historyBackward atOnce) := by
  have hindex := h.historyIndex
  rw [Session.historyBackward]
  split_ifs with hpos
  · have hnext : Shown { s with historyIndex := s.historyIndex - 1 } :=
      { h with historyIndex := by dsimp only; omega }
    obtain ⟨hshown, hdata⟩ := hnext.overwriteBuffer atOnce hdone
      (h.line_history (i := s.historyIndex - 1) (by omega))
    exact ⟨hshown, hdata⟩
  · exact h.sendBell

/-- The calls of `OnData` when enter is pressed: none for an empty line. -/
def entered (s : Session) : List (List UInt8) := if s.buffer = [] then [] else [s.buffer]

@[simp] theorem handOver_screen (s : Session) : s.handOver.screen = s.screen := by
  rw [handOver]
  split_ifs <;> rfl

@[simp] theorem handOver_sendDone (s : Session) : s.handOver.sendDone = s.sendDone := by
  rw [handOver]
  split_ifs <;> rfl

/-- The line goes to the history and to `OnData`, unless it is empty. -/
theorem handOver_spec (hline : Line s.buffer) (hhistory : ∀ line ∈ s.history, Line line)
    (hindex : s.historyIndex ≤ s.history.length) :
    (∀ line ∈ s.handOver.history, Line line) ∧ s.handOver.historyIndex ≤ s.handOver.history.length ∧
      s.handOver.asserted = s.asserted ∧ s.handOver.onData = s.onData ++ s.entered := by
  rw [handOver, entered]
  by_cases hempty : s.buffer = []
  · rw [if_neg (by simp [hempty]), if_pos hempty, List.append_nil]
    exact ⟨hhistory, hindex, rfl, rfl⟩
  · rw [if_pos (List.length_pos_iff.mpr hempty), if_neg hempty]
    refine ⟨?_, le_refl _, rfl, rfl⟩
    intro line hmem
    rcases List.mem_append.mp hmem with hmem | hmem
    · refine hhistory line ?_
      split_ifs at hmem
      · exact List.mem_of_mem_tail hmem
      · exact hmem
    · rw [List.mem_singleton.mp hmem]
      exact hline

/-- **Enter** hands over the line, and begins a new one. -/
theorem Shown.processEnter (h : Shown s) (hdone : s.sendDone = true) :
    Shown (s.processEnter true) ∧ (s.processEnter true).onData = s.onData ++ s.entered := by
  have hnew (line : Nat → UInt8) (k : Nat) :
      ((Screen.mk line k).write [carriageReturn, lineFeed]).write prompt = ⟨text (prompt ++ []), prompt.length⟩ := by
    have hblank : (Screen.mk line k).write [carriageReturn, lineFeed] = ⟨text [], 0⟩ := by
      rw [text_nil]
      rfl
    rw [hblank, Screen.write_text (Nat.zero_le _) printable_prompt]
    exact mk_text_eq (by simp) (by simp)
  have hscreen : (s.screen.write [carriageReturn, lineFeed]).write prompt = ⟨text (prompt ++ []), prompt.length⟩ := by
    rw [h.screen, hnew]
  rw [Session.processEnter, print_eq hdone, print_eq (by simp)]
  obtain ⟨hhistory, hindex, hasserted, hdata⟩ :=
    @handOver_spec { s.sendData [carriageReturn, lineFeed] with sendDone := true } h.line h.history h.historyIndex
  refine ⟨⟨?_, le_refl _, line_nil, hhistory, hindex, hasserted.trans h.asserted⟩, hdata⟩
  simp only [sendData, handOver_screen]
  exact hscreen

/-- **A character at the end of the line** is added to it. So is a blank over a blank, which looks the
same. -/
theorem Shown.sendNonEscapeChar (h : Shown s) {c : UInt8} (hc : Printable c) (hsize : s.buffer.length < maxSize)
    (hplace : s.cursorPosition = s.buffer.length ∨ (c = blank ∧ s.buffer[s.cursorPosition]? = some blank)) :
    Keeps s (s.sendNonEscapeChar c) := by
  have hcursor := h.cursor
  have hline : Line (s.buffer ++ [c]) := by
    refine ⟨by simp; omega, ?_⟩
    intro x hx
    rcases List.mem_append.mp hx with hx | hx
    · exact h.line.2 x hx
    · rw [List.mem_singleton.mp hx]
      exact hc
  have hchar : s.sendNonEscapeChar c = { s.sendData [c] with
      buffer := s.buffer ++ [c], cursorPosition := s.cursorPosition + 1 } := by
    rw [Session.sendNonEscapeChar, if_pos hc]
    exact if_neg (Nat.ne_of_lt hsize)
  rw [hchar]
  refine ⟨⟨?_, by simp; omega, hline, h.history, h.historyIndex, h.asserted⟩, rfl⟩
  have hwrite := h.write (w := [c]) (by simpa using hc)
  rcases hplace with hend | ⟨rfl, hblank⟩
  · refine hwrite.trans (mk_text_eq ?_ rfl)
    rw [hend, List.take_length, List.drop_eq_nil_of_le (by simp), List.append_nil]
  · refine hwrite.trans ?_
    obtain ⟨hlt, hget⟩ := List.getElem?_eq_some_iff.mp hblank
    have hsame : s.buffer.take s.cursorPosition ++ [blank] ++ s.buffer.drop (s.cursorPosition + [blank].length) =
        s.buffer := by
      rw [← hget]
      simp
    rw [hsame]
    have hblanks := text_append_blank (prompt ++ s.buffer) 1
    rw [List.replicate_one, List.append_assoc] at hblanks
    dsimp only
    rw [hblanks]
    rfl

theorem Shown.processBackspace (h : Shown s) (hdone : s.sendDone = true) : Keeps s (s.processBackspace atOnce) := by
  obtain ⟨hleft, hdata⟩ := h.moveCursorLeft
  have hdone' : s.moveCursorLeft.sendDone = true := by
    rw [Session.moveCursorLeft]
    split_ifs <;> exact hdone
  obtain ⟨hshown, hdata'⟩ := hleft.processDelete atOnce hdone'
  exact ⟨hshown, hdata'.trans hdata⟩

/-- Every escape sequence keeps the screen right. -/
theorem Shown.processEscapeSequence (h : Shown s) (hdone : s.sendDone = true) (c : UInt8) :
    Keeps s (s.processEscapeSequence atOnce c).1 := by
  rw [Session.processEscapeSequence]
  split_ifs
  · exact ⟨h, rfl⟩
  · exact h.historyBackward atOnce hdone
  · exact h.historyForward atOnce hdone
  · exact h.moveCursorRight
  · exact h.moveCursorLeft
  · exact h.moveCursorEnd
  · exact h.moveCursorHome atOnce hdone
  · exact h.sendBell

/-- A character that is none of the keys with a problem. -/
structure Harmless (s : Session) (atOnce : Bool) (c : UInt8) : Prop where
  /-- Enter prints twice: the serial port has to be done with the line feed before the prompt is printed. -/
  enter : c = carriageReturn → atOnce = true
  /-- A backspace at the start of the line deletes the character under the cursor. -/
  backspace : IsBackspace c → 0 < s.cursorPosition ∨ s.buffer = []
  /-- A character is added at the end of the buffer, wherever the cursor is. -/
  place : Printable c → s.buffer.length < maxSize ∧
    (s.cursorPosition = s.buffer.length ∨ (c = blank ∧ s.buffer[s.cursorPosition]? = some blank))

/-- Every key but enter keeps the screen right. -/
theorem Shown.handleNonEscapeChar (h : Shown s) (hdone : s.sendDone = true) {c : UInt8} (hc : c ≠ carriageReturn)
    (hharmless : Harmless s atOnce c) : Keeps s (s.handleNonEscapeChar atOnce c) := by
  rw [Session.handleNonEscapeChar]
  refine .ite (fun _ => ⟨h, rfl⟩) fun _ => ?_
  refine .ite (fun henter => absurd henter hc) fun _ => ?_
  refine .ite (fun _ => ?_) fun _ => ?_
  · exact ⟨{ h with }, rfl⟩
  refine .ite (fun _ => h.processBackspace atOnce hdone) fun _ => ?_
  refine .ite (fun _ => h.moveCursorHome atOnce hdone) fun _ => ?_
  refine .ite (fun _ => h.moveCursorLeft) fun _ => ?_
  refine .ite (fun _ => h.overwriteBuffer atOnce hdone line_nil) fun _ => ?_
  refine .ite (fun _ => h.processDelete atOnce hdone) fun _ => ?_
  refine .ite (fun _ => h.moveCursorEnd) fun _ => ?_
  refine .ite (fun _ => h.moveCursorRight) fun _ => ?_
  refine .ite (fun _ => h.historyForward atOnce hdone) fun _ => ?_
  refine .ite (fun _ => h.historyBackward atOnce hdone) fun _ => ?_
  by_cases hprintable : Printable c
  · obtain ⟨hsize, hplace⟩ := hharmless.place hprintable
    exact h.sendNonEscapeChar hprintable hsize hplace
  · rw [Session.sendNonEscapeChar, if_neg hprintable]
    exact h.sendBell

/-- A backspace on an empty line. -/
theorem processBackspace_nil (h : Shown s) (hbuffer : s.buffer = []) : (s.processBackspace atOnce).buffer = s.buffer := by
  have hcursor : s.cursorPosition = 0 := by
    have := h.cursor
    rw [hbuffer] at this
    exact Nat.le_zero.mp this
  rw [processBackspace, moveCursorLeft, if_neg (by omega), processDelete]
  rw [if_neg]
  · rfl
  · simp [sendBell, sendData, hbuffer]

/-- The prompt is not printed while the serial port is not done with the line feed. -/
theorem processEnter_late (hdone : s.sendDone = true) :
    (s.processEnter false).screen.column = 0 ∧ (s.processEnter false).cursorPosition = 0 := by
  rw [processEnter, print_eq hdone, print, if_neg (by simp)]
  refine ⟨?_, rfl⟩
  rw [handOver_screen]
  rfl

/-- **A backspace at the start of a line** erases the first character. -/
theorem processBackspace_start (h : Shown s) (hdone : s.sendDone = true) (hcursor : s.cursorPosition = 0)
    (hbuffer : s.buffer ≠ []) : (s.processBackspace atOnce).buffer ≠ s.buffer := by
  obtain ⟨hbell, -⟩ := h.sendBell
  have hlt : s.sendBell.cursorPosition < s.sendBell.buffer.length := by
    have hpos := List.length_pos_iff.mpr hbuffer
    simp only [sendBell, sendData, hcursor]
    exact hpos
  have herase := (hbell.eraseCharacterUnderCursor atOnce hdone hlt).2
  have hlength := length_erased hlt
  rw [processBackspace, moveCursorLeft, if_neg (by omega), processDelete, if_pos hlt, herase]
  intro heq
  rw [heq] at hlength
  simp [sendBell, sendData] at hlength

theorem handleNonEscapeChar_printable (s : Session) {c : UInt8} (hc : Printable c) :
    s.handleNonEscapeChar atOnce c = s.sendNonEscapeChar c := by
  have hne (k : UInt8) (hk : k ≤ 31 ∨ 127 ≤ k) : c ≠ k := by
    rintro rfl
    simp only [Printable, UInt8.lt_iff_toNat_lt, UInt8.le_iff_toNat_le] at hc hk
    omega
  have hbackspace : ¬ IsBackspace c := by
    rintro (h | h)
    · exact hne _ (by decide) h
    · exact hne _ (by decide) h
  rw [handleNonEscapeChar, if_neg (hne _ (by decide)), if_neg (hne _ (by decide)), if_neg (hne _ (by decide)),
    if_neg hbackspace, if_neg (hne _ (by decide)), if_neg (hne _ (by decide)), if_neg (hne _ (by decide)),
    if_neg (hne _ (by decide)), if_neg (hne _ (by decide)), if_neg (hne _ (by decide)),
    if_neg (hne _ (by decide)), if_neg (hne _ (by decide))]

end Session

/-! ## Every run -/

/-- A byte that is received, and whether the serial port is done at once with what is sent for it. In
any case it is done before the next byte. -/
structure Received where
  byte : UInt8
  atOnce : Bool

/-- The session, and the one before the last byte was handled. -/
structure Moment where
  session : Session := start
  before : Option (Session × UInt8) := none

/-- A byte is handled, unless an assertion has failed. -/
def step (m : Moment) (e : Received) : Option Moment :=
  some {
    session := if m.session.asserted then m.session
      else { m.session.handleChar e.atOnce e.byte with sendDone := true }
    before := some (m.session, e.byte) }

/-- The handling of the byte has no problem. -/
def Proper (m : Moment) (e : Received) : Prop :=
  m.session.processingEscapeSequence = false → m.session.Harmless e.atOnce e.byte

/-- The calls of `OnData` get the line that is on the screen. -/
def HandsOver (s : Session) (calls : List (List UInt8)) : Prop :=
  (calls = [] ∧ s.screen.line = text prompt) ∨ ∃ line, calls = [line] ∧ s.screen.line = text (prompt ++ line)

/-- What the last byte did to the line and to the user of the terminal. -/
structure Handled (s : Session) (c : UInt8) (s' : Session) : Prop where
  /-- A backspace at the start of the line leaves the buffer unchanged. -/
  backspace : s.processingEscapeSequence = false → Session.IsBackspace c → s.cursorPosition = 0 →
    s'.buffer = s.buffer
  enter : s.processingEscapeSequence = false → c = carriageReturn →
    ∃ calls, s'.onData = s.onData ++ calls ∧ HandsOver s calls
  other : s.processingEscapeSequence = true ∨ c ≠ carriageReturn → s'.onData = s.onData

/-- The screen shows the line buffer. -/
structure Faithful (m : Moment) : Prop where
  asserted : m.session.asserted = false
  cursor : m.session.cursorPosition ≤ m.session.buffer.length
  size : m.session.buffer.length ≤ maxSize
  historyIndex : m.session.historyIndex ≤ m.session.history.length
  line : m.session.screen.line = text (prompt ++ m.session.buffer)
  column : m.session.screen.column = prompt.length + m.session.cursorPosition
  handled : ∀ s c, m.before = some (s, c) → Handled s c m.session

/-- What holds before every byte of a run without problems. -/
structure Inv (m : Moment) : Prop where
  shown : m.session.Shown
  sendDone : m.session.sendDone = true
  handled : ∀ s c, m.before = some (s, c) → Handled s c m.session

theorem Inv.faithful {m : Moment} (h : Inv m) : Faithful m where
  asserted := h.shown.asserted
  cursor := h.shown.cursor
  size := h.shown.line.1
  historyIndex := h.shown.historyIndex
  line := by rw [h.shown.screen]
  column := by rw [h.shown.screen]
  handled := h.handled

theorem inv_start : Inv {} := by
  refine ⟨⟨?_, le_refl _, Session.line_nil, by simp [start], le_refl _, rfl⟩, rfl, by simp⟩
  have hnew : ({} : Screen) = ⟨text [], 0⟩ := by rw [text_nil]
  simp only [start]
  rw [hnew, Screen.write_text (Nat.zero_le _) Session.printable_prompt]
  exact mk_text_eq (by simp) (by simp)

/-- **A byte without a problem keeps the screen right.** -/
theorem Inv.step {m m' : Moment} {e : Received} (h : Inv m) (hproper : Proper m e) (hstep : step m e = some m') :
    Inv m' := by
  obtain ⟨s, before⟩ := m
  obtain ⟨c, atOnce⟩ := e
  obtain ⟨hshown, hdone, -⟩ := h
  dsimp only at hshown hdone
  simp only [Terminal.step, hshown.asserted, Bool.false_eq_true, if_false, Option.some.injEq] at hstep
  subst hstep
  have hkept {s' : Session} (h : s.Keeps s') (hbackspace : s.processingEscapeSequence = false →
      Session.IsBackspace c → s.cursorPosition = 0 → s'.buffer = s.buffer)
      (hother : s.processingEscapeSequence = true ∨ c ≠ carriageReturn) :
      Inv ⟨{ s' with sendDone := true }, some (s, c)⟩ := by
    obtain ⟨⟨hscreen, hcursor, hline, hhistory, hindex, hasserted⟩, hdata⟩ := h
    refine ⟨⟨hscreen, hcursor, hline, hhistory, hindex, hasserted⟩, rfl, ?_⟩
    rintro s₀ c₀ ⟨⟩
    refine ⟨hbackspace, ?_, fun _ => hdata⟩
    intro hescape henter
    rcases hother with hother | hother
    · rw [hescape] at hother
      cases hother
    · exact absurd henter hother
  cases hescape : s.processingEscapeSequence with
  | true =>
      obtain ⟨⟨hscreen, hcursor, hline, hhistory, hindex, hasserted⟩, hdata⟩ :=
        hshown.processEscapeSequence atOnce hdone c
      rw [Session.handleChar, if_pos hescape]
      refine hkept ⟨⟨hscreen, hcursor, hline, hhistory, hindex, hasserted⟩, hdata⟩ ?_ (.inl hescape)
      intro hnot
      rw [hescape] at hnot
      cases hnot
  | false =>
      have hharmless := hproper hescape
      rw [Session.handleChar, if_neg (by simp [hescape])]
      by_cases henter : c = carriageReturn
      · have hatOnce : atOnce = true := hharmless.enter henter
        have hhandle : s.handleNonEscapeChar atOnce c = s.processEnter true := by
          rw [henter, hatOnce]
          rfl
        obtain ⟨⟨hscreen, hcursor, hline, hhistory, hindex, hasserted⟩, hdata⟩ := hshown.processEnter hdone
        rw [hhandle]
        refine ⟨⟨hscreen, hcursor, hline, hhistory, hindex, hasserted⟩, rfl, ?_⟩
        rintro s₀ c₀ ⟨⟩
        refine ⟨?_, ?_, ?_⟩
        · intro _ hbackspace
          rw [henter] at hbackspace
          exact absurd hbackspace (by decide)
        · intro _ _
          refine ⟨s.entered, hdata, ?_⟩
          rw [Session.entered]
          split_ifs with hempty
          · refine .inl ⟨rfl, ?_⟩
            rw [hshown.screen, hempty, List.append_nil]
          · refine .inr ⟨s.buffer, rfl, ?_⟩
            rw [hshown.screen]
        · rintro (hother | hother)
          · rw [hescape] at hother
            cases hother
          · exact absurd henter hother
      · refine hkept (hshown.handleNonEscapeChar atOnce hdone henter hharmless) ?_ (.inr henter)
        intro _ hbackspace hcursor
        have hempty : s.buffer = [] := (hharmless.backspace hbackspace).resolve_left (by dsimp only; omega)
        have hhandle : s.handleNonEscapeChar atOnce c = s.processBackspace atOnce := by
          rcases hbackspace with rfl | rfl <;> rfl
        rw [hhandle]
        exact Session.processBackspace_nil atOnce hshown hempty

/-- The cells after the prompt. -/
theorem text_prompt (t : List UInt8) (i : Nat) : text (prompt ++ t) (prompt.length + i) = t.getD i blank := by
  simp only [text, List.getD_eq_getElem?_getD, List.getElem?_append_right (Nat.le_add_right _ _),
    Nat.add_sub_cancel_left]

/-- **A byte with a problem** shows: on the screen, in the buffer, or as a failed assertion. -/
theorem Inv.not_faithful {m m' : Moment} {e : Received} (h : Inv m) (hproper : ¬ Proper m e)
    (hstep : Terminal.step m e = some m') : ¬ Faithful m' := by
  obtain ⟨s, before⟩ := m
  obtain ⟨c, atOnce⟩ := e
  obtain ⟨hshown, hdone, -⟩ := h
  dsimp only at hshown hdone
  simp only [Terminal.step, hshown.asserted, Bool.false_eq_true, if_false, Option.some.injEq] at hstep
  subst hstep
  intro hfaithful
  apply hproper
  intro hescape
  dsimp only at hescape
  have hchar : s.handleChar atOnce c = s.handleNonEscapeChar atOnce c := by
    rw [Session.handleChar, if_neg (by simp [hescape])]
  dsimp only at hfaithful ⊢
  rw [hchar] at hfaithful
  refine ⟨?_, ?_, ?_⟩
  · rintro rfl
    -- without the prompt, the cursor is at the start of the line
    cases atOnce with
    | true => rfl
    | false =>
        have hcolumn := hfaithful.column
        have hhandle : s.handleNonEscapeChar false carriageReturn = s.processEnter false := rfl
        dsimp only at hcolumn
        rw [hhandle, (Session.processEnter_late hdone).1, (Session.processEnter_late hdone).2] at hcolumn
        cases hcolumn
  · intro hbackspace
    by_contra hnot
    obtain ⟨hcursor, hbuffer⟩ := not_or.mp hnot
    have hcursor : s.cursorPosition = 0 := Nat.eq_zero_of_not_pos hcursor
    have hkept := (hfaithful.handled s c rfl).backspace hescape hbackspace hcursor
    have hhandle : s.handleNonEscapeChar atOnce c = s.processBackspace atOnce := by
      rcases hbackspace with rfl | rfl <;> rfl
    dsimp only at hkept
    rw [hhandle] at hkept
    exact Session.processBackspace_start atOnce hshown hdone hcursor hbuffer hkept
  · intro hprintable
    have hhandle := Session.handleNonEscapeChar_printable atOnce s hprintable
    have hsize : s.buffer.length < maxSize := by
      by_contra hfull
      have hasserted := hfaithful.asserted
      have heq : s.buffer.length = maxSize := le_antisymm hshown.line.1 (Nat.not_lt.mp hfull)
      dsimp only at hasserted
      rw [hhandle, Session.sendNonEscapeChar, if_pos hprintable] at hasserted
      simp only [Session.sendData_buffer, heq, if_true] at hasserted
      cases hasserted
    refine ⟨hsize, ?_⟩
    by_contra hnot
    obtain ⟨hplace, hblank⟩ := not_or.mp hnot
    have hlt : s.cursorPosition < s.buffer.length := lt_of_le_of_ne hshown.cursor hplace
    have hline := hfaithful.line
    have hadded : s.sendNonEscapeChar c = { s.sendData [c] with
        buffer := s.buffer ++ [c], cursorPosition := s.cursorPosition + 1 } := by
      rw [Session.sendNonEscapeChar, if_pos hprintable]
      exact if_neg (Nat.ne_of_lt hsize)
    dsimp only at hline
    rw [hhandle, hadded] at hline
    dsimp only [Session.sendData] at hline
    rw [hshown.write (w := [c]) (by simpa using hprintable)] at hline
    dsimp only at hline
    -- the cell at the cursor, and the one after the line
    have hat := congrFun hline (prompt.length + s.cursorPosition)
    have hafter := congrFun hline (prompt.length + s.buffer.length)
    rw [text_prompt, text_prompt] at hat hafter
    have htake : (s.buffer.take s.cursorPosition).length = s.cursorPosition := by
      rw [List.length_take]
      omega
    have hcell : c = s.buffer[s.cursorPosition] := by
      simpa [List.getD_eq_getElem?_getD, List.getElem?_append, htake, hlt] using hat
    have hlength : (s.buffer.take s.cursorPosition ++ [c] ++ s.buffer.drop (s.cursorPosition + [c].length)).length =
        s.buffer.length := by
      simp only [List.length_append, List.length_singleton, List.length_drop, htake]
      omega
    have hend : blank = c := by
      rw [List.getD_eq_getElem?_getD, List.getElem?_eq_none (le_of_eq hlength)] at hafter
      simpa using hafter
    refine hblank ⟨hend.symm, ?_⟩
    rw [List.getElem?_eq_getElem hlt, ← hcell, hend]

theorem exists_run (m : Moment) (received : List Received) : ∃ m', EventSystem.run Terminal.step m received = some m' := by
  induction received generalizing m with
  | nil => exact ⟨m, rfl⟩
  | cons e rest ih =>
      obtain ⟨m', h⟩ := ih _
      exact ⟨m', EventSystem.run_cons.mpr ⟨_, rfl, h⟩⟩

/-- **The screen shows the line buffer all along a run if and only if no byte of it has a problem**:
enter while the serial port is slow, a backspace at the start of a line, a character inside a line or at
the end of a full one. -/
theorem screen_shows_line_iff (received : List Received) :
    EventSystem.Always Terminal.step Faithful {} received ↔ EventSystem.Along Terminal.step Proper {} received := by
  obtain ⟨m, hm⟩ := exists_run {} received
  refine EventSystem.always_iff_along Inv (fun m h => h.faithful) ?_ ?_ inv_start hm
  · intro m e m' h hproper hstep
    exact h.step hproper hstep
  · intro m e m' h hproper hstep
    exact h.not_faithful hproper hstep

/-- **Two characters, back to the start, and a third one**: it is shown over the first, and kept at the
end. And **a backspace at the start of a line** deletes the first character. -/
theorem not_faithful_inside :
    ¬ EventSystem.Always Terminal.step Faithful {} [⟨0x61, true⟩, ⟨0x62, true⟩, ⟨1, true⟩, ⟨0x63, true⟩] ∧
      ¬ EventSystem.Always Terminal.step Faithful {} [⟨0x61, true⟩, ⟨1, true⟩, ⟨0x7f, true⟩] ∧
      ¬ EventSystem.Always Terminal.step Faithful {} [⟨carriageReturn, false⟩] := by
  refine ⟨?_, ?_, ?_⟩
  · intro h
    have hline := (h _ (List.prefix_refl _) _ rfl).line
    have hcell := congrFun hline 2
    revert hcell
    decide
  · intro h
    have hbackspace := ((h _ (List.prefix_refl _) _ rfl).handled _ _ rfl).backspace rfl (by decide) rfl
    revert hbackspace
    decide
  · intro h
    have hcolumn := (h _ (List.prefix_refl _) _ rfl).column
    revert hcolumn
    decide

end EmbeddedInfra.Terminal
