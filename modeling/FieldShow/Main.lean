import FieldShow.Console.Report
import FieldShow.Json.Printer

/-! The program itself: the file is read and the report is written. -/

namespace FieldShow.Console

def readSource (path : String) : IO Source := do
  match ← (IO.FS.Handle.mk path .read).toBaseIO with
  | .error _ => return .missing
  | .ok handle =>
    match ← handle.readBinToEnd.toBaseIO with
    | .error _ => return .unreadable
    | .ok bytes => return (String.fromUTF8? bytes).elim .unreadable .text

end FieldShow.Console

open FieldShow.Console in
def main (args : List String) : IO UInt32 := do
  let request := Request.ofArguments args
  let source ← match request with
    | .run i => readSource i.path
    | _ => pure .missing
  let report := request.report .standard fun _ => source
  IO.print report.out
  IO.eprint report.err
  return report.exit.toUInt32
