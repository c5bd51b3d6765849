/-
Trees of files and directories.

A tree lists its files and directories by the names that lead to them from the
working directory, which is there without being listed.  Following a path takes
its parts one by one, and every part needs a directory to start from, also a dot
and the empty part after a slash at the end.  So `walk` is where a missing name and
a path through a file are found out, and the other operations start with it.
-/
import TallyLang.FileTree.Path

namespace TallyLang

/-- Why the system refuses an operation on files. -/
inductive SystemError where
  | notFound
  | alreadyExists
  | notADirectory
  | isADirectory
  | other (code : Nat) (reason : String)
deriving DecidableEq, Repr

namespace SystemError

/-- The number of the error. -/
def code : SystemError → Nat
  | notFound => 2
  | alreadyExists => 17
  | notADirectory => 20
  | isADirectory => 21
  | other code _ => code

/-- The reason in words. -/
def reason : SystemError → String
  | notFound => "No such file or directory"
  | alreadyExists => "File exists"
  | notADirectory => "Not a directory"
  | isADirectory => "Is a directory"
  | other _ reason => reason

/-- The error with a given number. -/
def ofCode (code : Nat) (reason : String) : SystemError :=
  ([notFound, alreadyExists, notADirectory, isADirectory].find? (fun e => e.code = code)).getD
    (other code reason)

/-- The wording, with the number. -/
def text (e : SystemError) : String := e.reason ++ " (os error " ++ toString e.code ++ ")"

end SystemError

/-- Why a source cannot be read. -/
inductive ReadError where
  | system (e : SystemError)
  | notText
deriving DecidableEq, Repr

namespace ReadError

/-- The wording. -/
def text : ReadError → String
  | system e => e.text
  | notText => "stream did not contain valid UTF-8"

end ReadError

/-- The text that bytes encode. -/
def decodeText (bytes : ByteArray) : Except ReadError String :=
  match String.fromUTF8? bytes with
  | some text => .ok text
  | none => .error .notText

/-- What a name stands for. -/
inductive Entry where
  | file (content : ByteArray)
  | dir

/-- A tree of files and directories, as a list. -/
structure FileTree where
  entries : List (List String × Entry)

namespace FileTree

/-- The tree with nothing in it. -/
def empty : FileTree := ⟨[]⟩

/-- What the names lead to from the working directory. -/
def get? (t : FileTree) (names : List String) : Option Entry :=
  if names.isEmpty then some .dir else t.entries.lookup names

/-- The tree with `entry` under the names, in place of what was there. -/
def insert (t : FileTree) (names : List String) (entry : Entry) : FileTree :=
  if (t.entries.lookup names).isSome then
    ⟨t.entries.map fun e => if e.1 = names then (names, entry) else e⟩
  else ⟨t.entries ++ [(names, entry)]⟩

/-- Follows the parts of a path from the directory `here`. -/
def walk (t : FileTree) (here : List String) : List String → Except SystemError (List String)
  | [] => .ok here
  | part :: rest =>
    match t.get? here with
    | none => .error .notFound
    | some (.file _) => .error .notADirectory
    | some .dir =>
      if Path.isIdle part then t.walk here rest
      else if part = ".." then t.walk here.dropLast rest
      else if (t.get? (here ++ [part])).isSome then t.walk (here ++ [part]) rest
      else .error .notFound

/-- Follows the parts of a path to a directory. -/
def walkToDir (t : FileTree) (parts : List String) : Except SystemError (List String) :=
  t.walk [] (parts ++ ["."])

/-- The content of a file. -/
def read (t : FileTree) (p : Path) : Except SystemError ByteArray :=
  if p.text.isEmpty then .error .notFound
  else
    match t.walk [] p.parts with
    | .error e => .error e
    | .ok names =>
      match t.get? names with
      | some (.file content) => .ok content
      | some .dir => .error .isADirectory
      | none => .error .notFound

/-- Makes or overwrites a file.  Its directory has to be there, and a path that ends in a slash
or in dots names no file. -/
def write (t : FileTree) (p : Path) (content : ByteArray) : Except SystemError FileTree :=
  if p.text.isEmpty then .error .notFound
  else
    match (p.parts.reverse.dropWhile (· = "")) with
    | [] => .error .isADirectory
    | last :: front =>
      match t.walkToDir front.reverse with
      | .error e => .error e
      | .ok dir =>
        if p.parts.getLast? = some "" || last = "." || last = ".." then .error .isADirectory
        else
          match t.get? (dir ++ [last]) with
          | some .dir => .error .isADirectory
          | _ => .ok (t.insert (dir ++ [last]) (.file content))

/-- Makes the directory `last` in the one that `front` leads to. -/
def makeDir (t : FileTree) (front : List String) (last : String) : Except SystemError FileTree :=
  match t.walkToDir front with
  | .error e => .error e
  | .ok dir =>
    if last = ".." || (t.get? (dir ++ [last])).isSome then .error .alreadyExists
    else .ok (t.insert (dir ++ [last]) .dir)

/-- Accepts that a directory cannot be made if it is there already. -/
def unlessDir (t : FileTree) (steps : List String) (e : SystemError) :
    Except SystemError Unit × FileTree :=
  match t.walkToDir steps with
  | .ok _ => (.ok (), t)
  | .error _ => (.error e, t)

/-- Makes the directory that `steps`, last one first, lead to, and those above it that are
missing.  What was made before a failure stays. -/
def makeDirsUp (t : FileTree) : List String → Except SystemError Unit × FileTree
  | [] => (.ok (), t)
  | last :: up =>
    let steps := (last :: up).reverse
    match t.makeDir up.reverse last with
    | .ok made => (.ok (), made)
    | .error .notFound =>
      match t.makeDirsUp up with
      | (.error e, made) => (.error e, made)
      | (.ok (), made) =>
        match made.makeDir up.reverse last with
        | .ok made => (.ok (), made)
        | .error e => made.unlessDir steps e
    | .error e => t.unlessDir steps e

/-- Makes a directory and those above it that are missing. -/
def makeDirs (t : FileTree) (p : Path) : Except SystemError Unit × FileTree :=
  t.makeDirsUp p.steps.reverse

/-- The tree that holds the given directories and files, and the directories they are in. -/
def ofContents (dirs : List Path) (files : List (Path × ByteArray)) : FileTree :=
  let withDirs := dirs.foldl (fun t p => (t.makeDirs p).2) empty
  files.foldl (fun t (p, content) =>
    let t := (p.parent?.map fun dir => (t.makeDirs dir).2).getD t
    (t.write p content).toOption.getD t) withDirs

end FileTree

end TallyLang
