import IppCode.Proofs.Ascii
import IppCode.Proofs.Outcomes
import IppCode.Proofs.Precedence

namespace IppCode

def OnOneLine (text : Text) : Prop := '\n' ∉ text

instance (text : Text) : Decidable (OnOneLine text) := inferInstanceAs (Decidable ('\n' ∉ text))

/-- The words of the source that the message of a fault repeats. -/
def Fault.quotes : Fault → List Text
  | .unknownOperation name => [name]
  | .mismatch (.operand _ _ _ token) => [token]
  | .mismatch (.arity ..) => []

/-- Whatever the message of a failure takes over from the source or from a device is on one line. -/
def Failure.Plain : Failure → Prop
  | .input cause | .output cause => OnOneLine cause.message
  | .rejected _ fault => ∀ word ∈ fault.quotes, OnOneLine word
  | .invalidArguments _ | .missingHeader => True

/-- The message holds no line feed, and the report only the one that ends it. -/
structure Failure.ToldInOneLine (failure : Failure) : Prop where
  message : OnOneLine failure.message
  report : failure.report.count lineFeed = 1

/-- A source that breaks off, if it does, with a failure in one line. -/
def Source.Plain (source : Source) : Prop :=
  ∀ cause, source.failure = some cause → OnOneLine cause.message

/-- A sink whose failures are each told in one line. -/
structure Sink.Plain (sink : Sink) : Prop where
  limit : ∀ limit, sink.limit = some limit → OnOneLine limit.failure.message
  flush : ∀ cause, sink.flushFailure = some cause → OnOneLine cause.message

theorem OnOneLine.append {s t : Text} (hs : OnOneLine s) (ht : OnOneLine t) :
    OnOneLine (s ++ t) := by
  intro hmem
  rcases List.mem_append.mp hmem with hmem | hmem
  · exact hs hmem
  · exact ht hmem

theorem onOneLine_decimal (n : Nat) : OnOneLine (decimal n) := by
  intro hmem
  exact absurd (isDigit_of_mem_decimal hmem) (by decide)

theorem onOneLine_opcode (opcode : Opcode) : OnOneLine opcode.name :=
  lineFeed_not_mem_opcode opcode

theorem onOneLine_description (slot : Slot) : OnOneLine slot.description := by
  cases slot <;> decide

theorem OnOneLine.quoted {text : Text} (h : OnOneLine text) : OnOneLine (quoted text) := by
  have hmark : OnOneLine "`".toList := by decide
  exact (hmark.append h).append hmark

theorem onOneLine_firstLine (text : Text) : OnOneLine (firstLine text) := by
  unfold firstLine
  split
  · rename_i line rest hcut
    have hline : '\n' ∉ line := (cutAt?_eq_some_iff.mp hcut).2
    exact fun hmem => hline (mem_of_mem_dropFinal hmem)
  · rename_i hcut
    exact cutAt?_eq_none_iff.mp hcut

theorem UsageError.onOneLine_message (cause : UsageError) : OnOneLine cause.message := by
  cases cause with
  | tooMany found =>
      have hexpected : OnOneLine "expected at most one argument, found ".toList := by decide
      exact hexpected.append (onOneLine_decimal found)
  | unexpected argument => exact onOneLine_firstLine _

theorem Mismatch.onOneLine_message {cause : Mismatch}
    (h : ∀ word ∈ (Fault.mismatch cause).quotes, OnOneLine word) : OnOneLine cause.message := by
  cases cause with
  | arity opcode expected found =>
      have htakes : OnOneLine " takes ".toList := by decide
      have hfound : OnOneLine " operand(s), found ".toList := by decide
      exact ((((onOneLine_opcode opcode).append htakes).append
        (onOneLine_decimal expected)).append hfound).append (onOneLine_decimal found)
  | operand opcode position slot token =>
      have htoken : OnOneLine token := h token (List.mem_singleton_self token)
      have hoperand : OnOneLine "operand ".toList := by decide
      have hof : OnOneLine " of ".toList := by decide
      have hmust : OnOneLine " must be ".toList := by decide
      have hfound : OnOneLine ", found ".toList := by decide
      exact ((((((hoperand.append (onOneLine_decimal position)).append hof).append
        (onOneLine_opcode opcode)).append hmust).append (onOneLine_description slot)).append
        hfound).append htoken.quoted

theorem Failure.Plain.onOneLine_message {failure : Failure} (h : failure.Plain) :
    OnOneLine failure.message := by
  cases failure with
  | invalidArguments cause =>
      have hinvalid : OnOneLine "Invalid arguments: ".toList := by decide
      exact hinvalid.append cause.onOneLine_message
  | input cause =>
      have hfailed : OnOneLine "Failed to read input: ".toList := by decide
      exact hfailed.append h
  | output cause =>
      have hfailed : OnOneLine "Failed to write output: ".toList := by decide
      exact hfailed.append h
  | missingHeader => decide
  | rejected line fault =>
      have hline : OnOneLine ("line ".toList ++ decimal line) := by
        have hword : OnOneLine "line ".toList := by decide
        exact hword.append (onOneLine_decimal line)
      cases fault with
      | unknownOperation name =>
          have hname : OnOneLine name := h name (List.mem_singleton_self name)
          have hunknown : OnOneLine ": Invalid or unknown operation ".toList := by decide
          exact (hline.append hunknown).append hname.quoted
      | mismatch cause =>
          have hsyntax : OnOneLine ": Syntax error: ".toList := by decide
          exact (hline.append hsyntax).append (Mismatch.onOneLine_message h)

theorem Failure.Plain.toldInOneLine {failure : Failure} (h : failure.Plain) :
    failure.ToldInOneLine := by
  refine ⟨h.onOneLine_message, ?_⟩
  have hascii : '\n'.toNat < 128 := by decide
  have hcount := count_toUtf8 hascii ("[ERROR] ".toList ++ failure.message ++ "\n".toList)
  rw [List.count_append, List.count_append, List.count_eq_zero.mpr h.onOneLine_message] at hcount
  exact hcount

theorem Statement.mem_words_of_quotes {statement : Statement} {fault : Fault} {word : Text}
    (h : statement.operation = .error fault) (hword : word ∈ fault.quotes) :
    word ∈ statement.words := by
  obtain ⟨name, tokens⟩ := statement
  have hanswers := Grammar.answers_assemble 1 name tokens
  rw [Assembler.assemble, h] at hanswers
  cases hanswers with
  | unknown =>
      obtain rfl := List.mem_singleton.mp hword
      exact List.mem_cons_self
  | arity => cases hword
  | operand _ _ hfirst =>
      obtain rfl := List.mem_singleton.mp hword
      exact List.mem_cons_of_mem name (List.mem_of_getElem? hfirst.token_eq)

namespace Source

theorem cause_of_mem_lines {source : Source} {cause : StreamError}
    (h : .error cause ∈ source.lines) : cause = .notUtf8 ∨ source.failure = some cause := by
  obtain ⟨bytes, _ | failure⟩ := source
  · exact .inl (notUtf8_of_mem_lines h)
  · rcases List.mem_append.mp h with hterminated | hending
    · have hline : .error cause ∈ Source.lines ⟨bytes, none⟩ := List.mem_append_left _ hterminated
      exact .inl (notUtf8_of_mem_lines hline)
    · obtain rfl : cause = failure := Except.error.inj (List.mem_singleton.mp hending)
      exact .inr rfl

theorem plain_of_program {source : Source} {failure : Failure} (hsource : source.Plain)
    (h : source.program = .error failure) : failure.Plain := by
  rcases refused_of_program h with rfl | ⟨_, reading, hreading, hrefuses⟩
  · trivial
  · cases hrefuses with
    | @unreadable _ cause =>
        rcases cause_of_mem_lines hreading with rfl | hfailure
        · have hmessage : OnOneLine StreamError.notUtf8.message := by decide
          exact hmessage
        · exact hsource cause hfailure
    | headerless => trivial
    | @faulty _ _ _ text statement fault hstatement hoperation =>
        intro word hword hfeed
        have htoken : word ∈ Line.tokens text := by
          rw [Statement.ofLine?_eq_some_iff.mp hstatement]
          exact Statement.mem_words_of_quotes hoperation hword
        exact lineFeed_not_mem_line hreading (Line.mem_of_mem_tokens htoken hfeed)

end Source

theorem Source.Plain.standardInput {source : Source} (h : source.Plain) :
    source.standardInput.Plain := by
  unfold Source.standardInput
  split
  · nofun
  · exact h

/-- What fails a delivery is told in one line. -/
def Delivery.Plain (delivery : Delivery) : Prop :=
  ∀ cause, delivery.failure = some cause → OnOneLine cause.message

namespace Delivery.Plain

variable {sink : Sink} {delivery : Delivery}

theorem start : Delivery.Plain {} := nofun

theorem write (h : delivery.Plain) (hsink : sink.Plain) (portion : Bytes) :
    (delivery.write sink portion).Plain := by
  unfold Delivery.write
  split
  · exact h
  · nofun
  · rename_i limit _ hlimit
    dsimp only
    split
    · nofun
    · intro cause hcause
      obtain rfl : limit.failure = cause := Option.some.inj hcause
      exact hsink.limit limit hlimit

theorem flush (h : delivery.Plain) (hsink : sink.Plain) : (delivery.flush sink).Plain := by
  unfold Delivery.flush
  split
  · exact h
  · exact hsink.flush

theorem overlook (h : delivery.Plain) : delivery.overlook.Plain := by
  unfold Delivery.overlook
  split
  · nofun
  · exact h

end Delivery.Plain

/-- A writer whose failures are told in one line. -/
def Writer.Plain {σ : Type} (writer : Writer σ) : Prop :=
  ∀ portions, (writer.publish portions).Plain

namespace Sink.Plain

variable {sink : Sink}

theorem writer (h : sink.Plain) : sink.writer.Plain := by
  intro portions
  rw [sink.direct_writer.publish_eq]
  exact (Delivery.Plain.start.write h _).flush h

theorem standardOutput (h : sink.Plain) : sink.standardOutput.Plain := by
  intro portions
  rw [sink.direct_standardOutput.publish_eq]
  have hwrite : (sink.standardOutput.write {} portions.flatten).Plain :=
    (Delivery.Plain.start.write h _).overlook
  simp only [Sink.standardOutput] at hwrite ⊢
  split
  · exact hwrite
  · exact (hwrite.flush h).overlook

end Sink.Plain

theorem Conversion.plain_ofDelivery {delivery : Delivery} {failure : Failure}
    (hdelivery : delivery.Plain) (h : (Conversion.ofDelivery delivery).failure = some failure) :
    failure.Plain := by
  obtain ⟨cause, hcause, rfl⟩ := Option.map_eq_some_iff.mp h
  exact hdelivery cause hcause

theorem Source.plain_of_writeTo {σ : Type} {source : Source} {writer : Writer σ}
    {failure : Failure} (hsource : source.Plain) (hwriter : writer.Plain)
    (h : (source.writeTo writer).failure = some failure) : failure.Plain := by
  cases hprogram : source.program with
  | error cause =>
      rw [writeTo_of_error hprogram] at h
      obtain rfl : cause = failure := Option.some.inj h
      exact plain_of_program hsource hprogram
  | ok program =>
      rw [writeTo_of_program hprogram] at h
      exact Conversion.plain_ofDelivery (hwriter _) h

namespace Invocation

theorem plain_of_conversion {args : List Text} {stdin : Source} {sink : Sink} {failure : Failure}
    (hstdin : stdin.Plain) (hsink : sink.Plain)
    (h : (conversion ⟨args, stdin, sink⟩).failure = some failure) : failure.Plain := by
  have hbuffered : (sink.standardOutput.buffered bufferSize).Plain := by
    intro portions
    rw [sink.direct_standardOutput.publish_buffered]
    exact hsink.standardOutput portions
  unfold conversion at h
  dsimp only at h
  split at h
  · obtain rfl := Option.some.inj h
    trivial
  · exact Conversion.plain_ofDelivery (hsink.standardOutput _) h
  · exact Source.plain_of_writeTo hstdin.standardInput hbuffered h

theorem stderr_of_failure {invocation : Invocation} {failure : Failure}
    (h : invocation.conversion.failure = some failure) :
    invocation.run.stderr = failure.report := by
  rw [run, Outcome.ofConversion, h]
  rfl

/-- Where the failures of devices are told in one line, so is every failure: those of the arguments,
whatever these hold, those of converting a source, whatever words of it are repeated, and those of
a whole run, which are all it reports. -/
theorem failure_told_in_one_line (args : List Text) {stdin : Source} {sink : Sink}
    (hstdin : stdin.Plain) (hsink : sink.Plain) :
    (∀ cause, Command.ofArgs args = .error cause →
      (Failure.invalidArguments cause).ToldInOneLine) ∧
    (∀ failure, (stdin.convert sink).failure = some failure → failure.ToldInOneLine) ∧
    ∀ failure, (conversion ⟨args, stdin, sink⟩).failure = some failure →
      failure.ToldInOneLine ∧ (run ⟨args, stdin, sink⟩).stderr = failure.report := by
  refine ⟨?_, ?_, ?_⟩
  · intro cause _
    have hplain : (Failure.invalidArguments cause).Plain := trivial
    exact hplain.toldInOneLine
  · intro failure h
    exact (Source.plain_of_writeTo hstdin hsink.writer h).toldInOneLine
  · intro failure h
    exact ⟨(plain_of_conversion hstdin hsink h).toldInOneLine, stderr_of_failure h⟩

theorem failure_told_in_one_line_of_argument :
    let args : List Text := ["parse".toList, "x\r\ny".toList]
    let stdin : Source :=
      ⟨toUtf8 ".IPPcode22\nFOO\r #\n".toList, some (.device "source broke".toList)⟩
    let sink : Sink := ⟨some ⟨3, .device "sink full".toList⟩, some (.device "flush failed".toList)⟩
    (stdin.convert sink).failure = some (.rejected 2 (.unknownOperation "FOO\r".toList)) ∧
      (Failure.rejected 2 (.unknownOperation "FOO\r".toList)).ToldInOneLine ∧
      (run ⟨args, stdin, sink⟩).stderr =
        toUtf8 "[ERROR] Invalid arguments: Found argument 'x\n".toList ∧
      (run ⟨args, stdin, sink⟩).stderr.count lineFeed = 1 := by
  intro args stdin sink
  have hstdin : stdin.Plain := by
    intro cause hcause
    obtain rfl := Option.some.inj hcause
    decide
  have hsink : sink.Plain := by
    constructor
    · intro limit hlimit
      obtain rfl := Option.some.inj hlimit
      decide
    · intro cause hcause
      obtain rfl := Option.some.inj hcause
      decide
  have hrejected : (stdin.convert sink).failure =
      some (.rejected 2 (.unknownOperation "FOO\r".toList)) := by decide
  have hargument : (conversion ⟨args, stdin, sink⟩).failure =
      some (.invalidArguments (.unexpected "x\r\ny".toList)) := by decide
  obtain ⟨-, hconvert, hrun⟩ := failure_told_in_one_line args hstdin hsink
  obtain ⟨htold, hstderr⟩ := hrun _ hargument
  refine ⟨hrejected, hconvert _ hrejected, ?_, ?_⟩
  · rw [hstderr]
    decide
  · rw [hstderr]
    exact htold.report

end Invocation

end IppCode
