import IppCode.Utf8

/-!
Sources, read line by line. A line ends at a line feed, and a carriage return right
before it belongs to the terminator. Each line is decoded on its own, so bytes that are
no text spoil only the line they stand in. A source may break off: its complete lines
can still be read, then the failure shows.

`Source.lines_append` says that cutting a source behind a line feed cuts its lines.
-/

namespace IppCode

/-- Why reading or writing failed. A call that was merely interrupted is made again. -/
inductive StreamError where
  | notUtf8
  /-- The descriptor is not open for what was tried on it. -/
  | badDescriptor
  /-- The device failed, in its own words. -/
  | device (text : Text)
  deriving DecidableEq

def StreamError.message : StreamError → Text
  | .notUtf8 => "stream did not contain valid UTF-8".toList
  | .badDescriptor => "Bad file descriptor (os error 9)".toList
  | .device text => text

/-- Bytes to read, and how the read behind them fails when they do not end there. -/
structure Source where
  bytes : Bytes
  failure : Option StreamError := none
  deriving DecidableEq

abbrev Reading := Except StreamError Text

def lineFeed : UInt8 := 10

/-- The text of a line, if its bytes are text. -/
def readLine (bytes : Bytes) : Reading :=
  match ofUtf8? bytes with
  | some text => .ok text
  | none => .error .notUtf8

/-- The text of a line that ended at a line feed. -/
def readTerminatedLine (bytes : Bytes) : Reading := (readLine bytes).map (dropFinal '\r')

/-- The pieces between line feeds; behind the last line feed stands one more piece. -/
def pieces (bytes : Bytes) : List Bytes := bytes.splitOnP (· == lineFeed)

namespace Source

/-- A source of which only the first bytes can be read before it fails. -/
def brokenAfter (count : Nat) (failure : StreamError) (bytes : Bytes) : Source :=
  ⟨bytes.take count, some failure⟩

/-- A source as the standard input of a process: a descriptor that is not open is at its end. -/
def standardInput (source : Source) : Source :=
  if source.failure = some .badDescriptor then ⟨source.bytes, none⟩ else source

/-- What is read behind the last line feed: the failure, or a line unless nothing is left. -/
def ending (source : Source) : List Reading :=
  match source.failure, (pieces source.bytes).getLastD [] with
  | some failure, _ => [.error failure]
  | none, [] => []
  | none, rest => [readLine rest]

def lines (source : Source) : List Reading :=
  (pieces source.bytes).dropLast.map readTerminatedLine ++ source.ending

end Source

theorem pieces_ne_nil (bytes : Bytes) : pieces bytes ≠ [] :=
  List.splitOnP_ne_nil _ bytes

theorem pieces_append (front rest : Bytes) :
    pieces (front ++ lineFeed :: rest) = pieces front ++ pieces rest :=
  List.splitOnP_append_cons front rest (by simp)

/-- Cutting a source behind a line feed cuts its lines. -/
theorem Source.lines_append (front rest : Bytes) (failure : Option StreamError) :
    Source.lines ⟨front ++ lineFeed :: rest, failure⟩ =
      (pieces front).map readTerminatedLine ++ Source.lines ⟨rest, failure⟩ := by
  have hlast : (pieces front ++ pieces rest).getLastD [] = (pieces rest).getLastD [] := by
    simp [List.getLastD_eq_getLast?, List.getLast?_eq_some_getLast (pieces_ne_nil rest)]
  simp only [Source.lines, Source.ending, pieces_append,
    List.dropLast_append_of_ne_nil (pieces_ne_nil rest), List.map_append, List.append_assoc, hlast]

end IppCode
