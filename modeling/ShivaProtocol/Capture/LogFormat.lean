import ShivaProtocol.Library.TextFormat
import ShivaProtocol.Capture.Reporter

/-!
# The text of the log

A line of the reporter is text for a reader who has nothing else.  `readLine` reads such a text
back: the drop rate is the percent before the point and the hundredths after it, which are always
two digits.  What it reads is the line itself (`readLine_text`), so the text of the log loses
nothing of what the reporter has computed, and no two lines have the same text.
-/

open TextFormat

namespace SgCapture

/-- The format of a line. -/
def Line.format : List Part :=
  [.literal "METRICS | frames/s=".toList, .number 0, .literal " drops/s=".toList, .number 0,
    .literal " drop_rate=".toList, .number 0, .literal ".".toList, .number 2,
    .literal "% channel_full=".toList, .number 0]

/-- The numbers in the text of a line, the drop rate in percent and hundredths of a percent. -/
def Line.numbers (line : Line) : List ℕ :=
  [line.deltaOk.toNat, line.deltaDrop.toNat, (line.dropBps / 100).toNat, (line.dropBps % 100).toNat,
    line.channelFull.toNat]

/-- The line that a text shows, if it has the format of a line. -/
def readLine (text : String) : Option Line :=
  match scan Line.format text.toList with
  | some [deltaOk, deltaDrop, percent, hundredths, channelFull] =>
      some
        { deltaOk := .ofNat deltaOk
          deltaDrop := .ofNat deltaDrop
          dropBps := .ofNat (100 * percent + hundredths)
          channelFull := .ofNat channelFull }
  | _ => none

/-- A word is written in its decimal digits. -/
theorem toList_toString (n : UInt64) :
  (toString n).toList = digits 0 n.toNat
  := by
  have hrepr : toString n = Nat.repr n.toNat := rfl
  rw [hrepr, Nat.toList_repr, digits_zero]

/-- A padded word is written in its digits and those of the padding. -/
theorem toList_leftpad (n : UInt64) :
  (String.leftpad 2 '0' (toString n)).toList = digits 2 n.toNat
  := by
  have hpad : String.leftpad 2 '0' (toString n)
      = String.ofList (List.leftpad 2 '0' (toString n).toList) := rfl
  rw [hpad, String.toList_ofList, toList_toString, digits_zero]
  rfl

/-- The text of a line is what its format gives its numbers. -/
theorem Line.toList_text (line : Line) :
  line.text.toList = render Line.format line.numbers
  := by
  unfold Line.text Line.format Line.numbers
  simp only [render, String.toList_append, toList_toString, toList_leftpad, List.append_assoc,
    List.append_nil]

/-- Percent and hundredths are the drop rate. -/
theorem percent_hundredths (n : UInt64) :
  100 * (n / 100).toNat + (n % 100).toNat = n.toNat
  := by
  rw [UInt64.toNat_div, UInt64.toNat_mod]
  apply Nat.div_add_mod

/-- The text of a line is read as the line. -/
theorem readLine_text (line : Line) :
  readLine line.text = some line
  := by
  have hscan : scan Line.format line.text.toList = some line.numbers := by
    rw [Line.toList_text]
    apply scan_render
    · decide
    · rfl
  rw [readLine, hscan]
  simp only [Line.numbers, percent_hundredths, UInt64.ofNat_toNat]

end SgCapture
