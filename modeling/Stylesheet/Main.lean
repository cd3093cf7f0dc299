import Stylesheet.CommandLine.Run

/-!
# The program

Reads the files that a command may need into a tree, runs the command on it, and does
what it left: prints both channels, writes the files that changed, and ends with a code
that tells whether it failed.
-/

namespace Stylesheet

/-- The bytes of a text. -/
def bytesOf (t : Text) : ByteArray := ⟨t.toArray⟩

/-- The directory of configurations. -/
def configDir : String := ".config"

/-- A hidden entry, other than the directory of configurations. -/
def isHidden (e : IO.FS.DirEntry) : Bool := e.fileName.startsWith "." && e.fileName != configDir

/-- The text of a file, if it can be read. -/
def readText (e : IO.FS.DirEntry) : IO (Option Text) := do
  try return some (← IO.FS.readBinFile e.path).toList
  catch _ => return none

/-- The files at and below an entry of a directory, by path, with their texts. What is hidden
below it is left out, as are directories that cannot be read, and links to directories are
not followed. -/
partial def filesBelow (e : IO.FS.DirEntry) : IO (List (Text × Option Text)) := do
  let path := e.path
  try
    if (← path.symlinkMetadata).type == .dir then
      let entries := (← path.readDir).toList.filter (!isHidden ·)
      entries.foldlM (fun found below => return (← filesBelow below) ++ found) []
    else return [(Text.of path.toString, ← readText e)]
  catch _ => return []

/-- The files a command may need: those below the working directory, and those that its
arguments name, with what is next to them. -/
def gatherFiles (args : List String) : IO FileTree := do
  let here ← IO.currentDir
  let tree : FileTree := { cwd := Text.of here.toString, system := true }
  let files ← filesBelow ⟨here, "."⟩
  let tree := { tree with
    files := files.map fun (p, c) => (tree.key p, c.getD [])
    unreadable := (files.filter (·.2.isNone)).map fun (p, _) => tree.key p }
  args.foldlM
    (fun tree arg => do
      let named ← filesBelow ⟨here, arg⟩
      let beside ← match named, (here / arg).parent with
        | [_], some dir => filesBelow ⟨dir, "."⟩
        | _, _ => pure []
      let known := tree.files.map (·.1)
      let found := (named ++ beside).filter fun (p, _) => !known.contains (tree.key p)
      return found.foldl (fun tree (p, c) => tree.addFound p c) tree)
    tree

/-- Writes the files that a command changed. -/
def writeChanges (tree old : FileTree) : IO Unit := do
  let here ← IO.currentDir
  for (k, c) in tree.changedFrom old do
    let path := here / ("/" ++ k.asString)
    if let some dir := path.parent then IO.FS.createDirAll dir
    IO.FS.writeBinFile path (bytesOf c)

/-- Runs the program on its arguments. -/
def runProgram (args : List String) : IO UInt32 := do
  let tree ← gatherFiles args
  let e := runCommand tree (args.map Text.of)
  writeChanges e.tree tree
  (← IO.getStdout).write (bytesOf e.out)
  (← IO.getStderr).write (bytesOf e.err)
  return if e.failed then 1 else 0

end Stylesheet

/-- The entry point. -/
def main (args : List String) : IO UInt32 := Stylesheet.runProgram args
