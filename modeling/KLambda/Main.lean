import KLambda.Console.Terminal
import Std.Time.DateTime.Timestamp

/-! The program: a console on the terminal and the file system. -/
namespace KLambda.Console

/-- More steps than any run will take. -/
def allowance : Nat := Nat.pow 2 62

def currentTime : IO Float := do
  let now ← Std.Time.Timestamp.now
  return Float.ofInt now.toMillisecondsSinceUnixEpoch.val

def isFolder (path : String) : IO Bool := do
  try
    let _ ← IO.FS.Handle.mk (path ++ "/.") .read
    return true
  catch _ => return false

/-- Fetches a file, or the directories on the way to where it would be. -/
def fetch (c : Console) (path : String) : IO Console := do
  try
    let bytes ← IO.FS.readBinFile path
    return c.addFile path bytes.data
  catch _ =>
    let folders ← (ancestors path).filterM isFolder
    return folders.foldl addFolder c

/-- Passes on what a stage wrote, to the terminal and to files. -/
def emit (before after : Console) : IO Console := do
  let (out, c) := after.drain after.output
  let (err, c) := c.drain c.errors
  (← IO.getStdout).write ⟨out⟩
  (← IO.getStdout).flush
  (← IO.getStderr).write ⟨err⟩
  for (name, bytes) in changed before after do
    IO.FS.writeBinFile name ⟨bytes⟩
  return c

partial def serve (c : Console) (known : List String) : IO UInt32 := do
  match c.stage with
  | .ended code => return code
  | _ =>
    let more : IO UInt32 := do
      let bytes ← (← IO.getStdin).read 4096
      serve (c.feed bytes.toList) known
    if c.awaitsLine then more
    else
      let next := (c.setTime (← currentTime)).advance allowance
      let unknown := next.missed.filter (!known.contains ·)
      if starved c next then more
      else if unknown.isEmpty then serve (← emit c next) known
      else
        let c ← unknown.foldlM fetch c
        serve c (unknown ++ known)

end KLambda.Console

open KLambda in
def main (args : List String) : IO UInt32 := do
  let now ← Console.currentTime
  let c := Console.start args .empty [Console.openEnd] now
  Console.serve (← Console.emit c c) []
