import IppCode.Invocation

namespace IppCode.Main

/-- A failed system call in words, with its code. Code 9 says that the descriptor is not open. -/
def describe (error : IO.Error) : StreamError :=
  let coded (code : UInt32) (details : String) : StreamError :=
    if code = 9 then
      .badDescriptor
    else
      .device (details.toList ++ " (os error ".toList ++ decimal code.toNat ++ ")".toList)
  match error with
  | .alreadyExists _ code details | .invalidArgument _ code details
  | .permissionDenied _ code details | .resourceExhausted _ code details
  | .inappropriateType _ code details | .noSuchThing _ code details => coded code details
  | .interrupted _ code details | .noFileOrDirectory _ code details => coded code details
  | .otherError code details | .resourceBusy code details | .resourceVanished code details
  | .unsupportedOperation code details | .hardwareFault code details
  | .unsatisfiedConstraints code details | .illegalOperation code details
  | .protocolError code details | .timeExpired code details => coded code details
  | .unexpectedEof => .device "unexpected end of file".toList
  | .userError text => .device text.toList

/-- Read a stream to its end, or to the first read that fails. -/
partial def readSource (stream : IO.FS.Stream) (bytes : ByteArray) : IO Source := do
  let portion ← try
      pure (Except.ok (← stream.read 65536))
    catch error =>
      pure (Except.error error)
  match portion with
  | .error (.interrupted ..) => readSource stream bytes
  | .error error => return ⟨bytes.toList, some (describe error)⟩
  | .ok portion =>
      if portion.isEmpty then
        return ⟨bytes.toList, none⟩
      else
        readSource stream (bytes ++ portion)

/-- Write bytes to a stream and flush it; the result is the failure, if any. -/
def publish (stream : IO.FS.Stream) (bytes : Bytes) : IO (Option StreamError) := do
  try
    stream.write bytes.toByteArray
    stream.flush
    return none
  catch error =>
    return some (describe error)

end IppCode.Main

open IppCode in
/-- Run the program. Input is read only if it is to be converted, and when standard output fails,
the run is the one of a sink that takes nothing: it reports the failure, unless the descriptor is
not open. -/
def main (args : List String) : IO UInt32 := do
  let args := [] :: args.map String.toList
  let stdin ← match Command.ofArgs args with
    | .ok .convert => Main.readSource (← IO.getStdin) .empty
    | _ => pure ⟨[], none⟩
  let outcome := Invocation.run ⟨args, stdin, {}⟩
  let printed ← Main.publish (← IO.getStdout) outcome.stdout
  let outcome := match printed with
    | none => outcome
    | some cause => Invocation.run ⟨args, stdin, ⟨some ⟨0, cause⟩, none⟩⟩
  let _ ← Main.publish (← IO.getStderr) outcome.stderr
  return outcome.exitCode.toUInt32
