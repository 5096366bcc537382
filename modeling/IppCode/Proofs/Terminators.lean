import IppCode.Proofs.Ascii
import IppCode.Proofs.BlankLines

namespace IppCode

def carriageReturn : UInt8 := 13

/-- The bytes with a carriage return put before the line feeds at chosen positions. -/
def withReturns (chosen : Nat → Bool) : Bytes → Bytes
  | [] => []
  | byte :: rest =>
      (if byte = lineFeed ∧ chosen 0 then [carriageReturn, lineFeed] else [byte]) ++
        withReturns (fun position => chosen (position + 1)) rest

def tokensRead (reading : Reading) : Except StreamError (List Text) := reading.map Line.tokens

namespace Progress

theorem step_eq_of_tokens {reading reading' : Reading}
    (h : tokensRead reading = tokensRead reading') (progress : Progress) :
    progress.step reading = progress.step reading' := by
  cases reading with
  | error cause =>
      cases reading' with
      | error cause' => rw [Except.error.inj h]
      | ok text' => cases h
  | ok text =>
      cases reading' with
      | error cause' => cases h
      | ok text' => simp only [step, Statement.ofLine?, Except.ok.inj h]

theorem advance_eq_of_tokens {readings readings' : List Reading}
    (h : readings.map tokensRead = readings'.map tokensRead) (progress : Progress) :
    progress.advance readings = progress.advance readings' := by
  induction readings generalizing readings' progress with
  | nil =>
      rw [List.map_nil, eq_comm, List.map_eq_nil_iff] at h
      rw [h]
  | cons reading rest ih =>
      obtain ⟨reading', rest', rfl, hreading, hrest⟩ := List.map_eq_cons_iff.mp h.symm
      rw [advance, advance, step_eq_of_tokens hreading]
      split
      · exact ih hrest.symm _
      · rfl

end Progress

theorem ofUtf8?_append_return (bytes : Bytes) :
    ofUtf8? (bytes ++ [carriageReturn]) = (ofUtf8? bytes).map (· ++ ['\r']) := by
  apply Option.ext
  intro text
  rw [ofUtf8?_eq_some_iff, Option.map_eq_some_iff]
  constructor
  · intro h
    have hascii : '\r'.toNat < 128 := by decide
    obtain ⟨before, after, rfl, rfl, hafter⟩ := exists_eq_of_toUtf8_eq hascii h.symm
    obtain rfl : after = [] := toUtf8_injective hafter
    exact ⟨before, ofUtf8?_toUtf8 before, rfl⟩
  · rintro ⟨before, hbefore, rfl⟩
    rw [toUtf8_append, ofUtf8?_eq_some_iff.mp hbefore]
    rfl

theorem tokensRead_append_return (piece : Bytes) :
    tokensRead (readLine (piece ++ [carriageReturn])) = tokensRead (readLine piece) := by
  simp only [readLine, ofUtf8?_append_return]
  cases ofUtf8? piece with
  | none => rfl
  | some text => exact congrArg Except.ok (Line.tokens_append_terminator (by decide) text)

theorem tokensRead_readTerminatedLine (piece : Bytes) :
    tokensRead (readTerminatedLine piece) = tokensRead (readLine piece) := by
  rw [readTerminatedLine]
  cases readLine piece with
  | error cause => rfl
  | ok text => exact congrArg Except.ok (Line.tokens_dropFinal (by decide) text)

theorem pieces_cons_lineFeed (bytes : Bytes) : pieces (lineFeed :: bytes) = [] :: pieces bytes :=
  pieces_append [] bytes

theorem pieces_cons_of_ne {byte : UInt8} (h : byte ≠ lineFeed) (bytes : Bytes) :
    pieces (byte :: bytes) = (pieces bytes).modifyHead (byte :: ·) := by
  rw [pieces, List.splitOnP_cons_eq_if_modifyHead, if_neg]
  · rfl
  · simpa using h

/-- The same lines, some of those that a line feed ends with one more carriage return. -/
def SameLines (bytes bytes' : Bytes) : Prop :=
  ∃ front front' last, pieces bytes = front ++ [last] ∧ pieces bytes' = front' ++ [last] ∧
    List.Forall₂ (fun piece piece' => piece' = piece ∨ piece' = piece ++ [carriageReturn])
      front front'

namespace SameLines

variable {bytes bytes' : Bytes}

theorem cons_return (h : SameLines bytes bytes') :
    SameLines (lineFeed :: bytes) (carriageReturn :: lineFeed :: bytes') := by
  obtain ⟨front, front', last, hpieces, hpieces', hsame⟩ := h
  refine ⟨[] :: front, [carriageReturn] :: front', last, ?_, ?_, .cons (.inr rfl) hsame⟩
  · rw [pieces_cons_lineFeed, hpieces, List.cons_append]
  · rw [pieces_cons_of_ne (by decide), pieces_cons_lineFeed, hpieces', List.cons_append]
    rfl

theorem cons (byte : UInt8) (h : SameLines bytes bytes') :
    SameLines (byte :: bytes) (byte :: bytes') := by
  obtain ⟨front, front', last, hpieces, hpieces', hsame⟩ := h
  by_cases hbyte : byte = lineFeed
  · subst hbyte
    refine ⟨[] :: front, [] :: front', last, ?_, ?_, .cons (.inl rfl) hsame⟩
    · rw [pieces_cons_lineFeed, hpieces, List.cons_append]
    · rw [pieces_cons_lineFeed, hpieces', List.cons_append]
  · rw [SameLines, pieces_cons_of_ne hbyte, pieces_cons_of_ne hbyte, hpieces, hpieces']
    cases hsame with
    | nil => exact ⟨[], [], byte :: last, rfl, rfl, .nil⟩
    | @cons piece piece' front front' hhead htail =>
        refine ⟨(byte :: piece) :: front, (byte :: piece') :: front', last, rfl, rfl,
          .cons ?_ htail⟩
        rcases hhead with rfl | rfl
        · exact .inl rfl
        · exact .inr rfl

end SameLines

theorem sameLines_withReturns (chosen : Nat → Bool) (bytes : Bytes) :
    SameLines bytes (withReturns chosen bytes) := by
  induction bytes generalizing chosen with
  | nil => exact ⟨[], [], [], rfl, rfl, .nil⟩
  | cons byte bytes ih =>
      rw [withReturns]
      split
      · rename_i hchosen
        rw [hchosen.1]
        exact (ih _).cons_return
      · exact (ih _).cons byte

namespace Source

theorem lines_eq_of_pieces {bytes last : Bytes} {front : List Bytes}
    (h : pieces bytes = front ++ [last]) (broken : Option StreamError) :
    Source.lines ⟨bytes, broken⟩ =
      front.map readTerminatedLine ++ Source.lines ⟨last, broken⟩ := by
  have hlast : pieces last = [last] := by
    apply pieces_eq_singleton
    apply lineFeed_not_mem_pieces
    rw [h]
    exact List.mem_append_right front List.mem_cons_self
  simp only [Source.lines, Source.ending, h, hlast, List.dropLast_concat, List.getLastD_concat]
  rfl

theorem map_tokensRead_lines_of_sameLines {bytes bytes' : Bytes} (h : SameLines bytes bytes')
    (broken : Option StreamError) :
    (Source.lines ⟨bytes', broken⟩).map tokensRead =
      (Source.lines ⟨bytes, broken⟩).map tokensRead := by
  obtain ⟨front, front', last, hpieces, hpieces', hsame⟩ := h
  rw [lines_eq_of_pieces hpieces, lines_eq_of_pieces hpieces', List.map_append, List.map_append,
    List.map_map, List.map_map]
  clear hpieces hpieces'
  congr 1
  induction hsame with
  | nil => rfl
  | @cons piece piece' _ _ hhead _ ih =>
      have hpiece : tokensRead (readTerminatedLine piece') =
          tokensRead (readTerminatedLine piece) := by
        rw [tokensRead_readTerminatedLine, tokensRead_readTerminatedLine]
        rcases hhead with rfl | rfl
        · rfl
        · exact tokensRead_append_return piece
      rw [List.map_cons, List.map_cons, ih, Function.comp_apply, Function.comp_apply, hpiece]

theorem program_withReturns (chosen : Nat → Bool) (bytes : Bytes) (broken : Option StreamError) :
    Source.program ⟨withReturns chosen bytes, broken⟩ = Source.program ⟨bytes, broken⟩ := by
  have htokens := map_tokensRead_lines_of_sameLines (sameLines_withReturns chosen bytes) broken
  rw [Source.program, Source.program, assemble, assemble, Progress.advance_eq_of_tokens htokens]

theorem program_append_lineFeed (bytes : Bytes) :
    Source.program ⟨bytes ++ [lineFeed], none⟩ = Source.program ⟨bytes, none⟩ := by
  obtain ⟨front, last, hpieces⟩ := exists_pieces_eq bytes
  have hlines : Source.lines ⟨bytes ++ [lineFeed], none⟩ =
      front.map readTerminatedLine ++ [readTerminatedLine last] := by
    rw [lines_append, lines_nil, List.append_nil, hpieces, List.map_append]
    rfl
  rw [Source.program, Source.program, assemble, assemble, hlines, lines_of_pieces hpieces]
  split
  · rename_i hlast
    have hempty : readTerminatedLine last = .ok [] := by
      rw [hlast]
      decide
    rw [hempty, List.append_nil]
    exact Progress.result_append_blank (by decide) {} _
  · have htokens : (front.map readTerminatedLine ++ [readTerminatedLine last]).map tokensRead =
        (front.map readTerminatedLine ++ [readLine last]).map tokensRead := by
      simp only [List.map_append, List.map_cons, tokensRead_readTerminatedLine]
    rw [Progress.advance_eq_of_tokens htokens]

/-- A carriage return before any of the line feeds of a source makes no difference to the program
it holds or to the failure of reading it, and neither does a line feed behind a source that is read
to its end. So what is written is the same, to whatever sink. -/
theorem program_and_convert_eq_of_terminators (bytes : Bytes) (chosen : Nat → Bool)
    (broken : Option StreamError) :
    Source.program ⟨withReturns chosen bytes, broken⟩ = Source.program ⟨bytes, broken⟩ ∧
      Source.program ⟨bytes ++ [lineFeed], none⟩ = Source.program ⟨bytes, none⟩ ∧
      ∀ sink, Source.convert ⟨withReturns chosen bytes, broken⟩ sink =
          Source.convert ⟨bytes, broken⟩ sink ∧
        Source.convert ⟨bytes ++ [lineFeed], none⟩ sink = Source.convert ⟨bytes, none⟩ sink := by
  refine ⟨program_withReturns chosen bytes broken, program_append_lineFeed bytes, ?_⟩
  intro sink
  constructor
  · rw [convert, convert, writeTo, writeTo, program_withReturns]
  · rw [convert, convert, writeTo, writeTo, program_append_lineFeed]

example : withReturns (· == 3) (toUtf8 "a\nb\nc\r\n".toList) = toUtf8 "a\nb\r\nc\r\n".toList := by
  decide

end Source

end IppCode
