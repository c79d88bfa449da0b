import EarleyTree.CommandLine

open EarleyTree.CommandLine

def readFile (path : String) : IO (Except FileError (List Nat)) := do
  try
    let bytes ← IO.FS.readBinFile path
    return .ok (bytes.toList.map UInt8.toNat)
  catch
    | .noFileOrDirectory _ _ _ => return .error .notFound
    | .inappropriateType _ _ _ => return .error .isDirectory
    | e => return .error (.other (toString e))

def main (args : List String) : IO UInt32 := do
  let outcome ← run readFile args
  IO.print outcome.output
  IO.eprint outcome.errors
  return outcome.code.toUInt32
