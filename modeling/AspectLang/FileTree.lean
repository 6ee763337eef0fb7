import AspectLang.Batch

/-! # Files and paths

A `FileTree` holds files and directories by the words of their paths.  `FileTree.find` follows
a path that is written with slashes; dots in it are followed too, and neither a path nor a word
of it may be longer than the file system allows.  `collect` lists the sources that a path leads
to, ordered by the words of their paths, so that what lies in `a` comes before `a.java`. -/

namespace AspectLang

/-- Something in a tree of files. -/
inductive FileEntry where
  | file (content : ByteArray)
  | directory

/-- Files and directories by the words of their paths.  The directories on the way to an entry
exist without being listed. -/
structure FileTree where
  entries : List (List String × FileEntry)

/-- What a path leads to: a file, or a directory with the files below it by the words of their
paths from there. -/
inductive FileNode where
  | file (content : ByteArray)
  | directory (files : List (List String × ByteArray))

/-- The text of a file. -/
def decodeText (content : ByteArray) : Except FileFault String :=
  match String.fromUTF8? content with
  | some text => .ok text
  | none => .error .notText

namespace FileTree

/-- The words of a path between slashes; some may be empty. -/
def words (path : String) : List String := (splitSlashes path.toList).map String.ofList
where
  /-- Cuts at every slash. -/
  splitSlashes : List Char → List (List Char)
    | [] => [[]]
    | '/' :: cs => [] :: splitSlashes cs
    | c :: cs =>
      match splitSlashes cs with
      | [] => [[c]]
      | word :: rest => (c :: word) :: rest

/-- The file at a path. -/
def file? (t : FileTree) (place : List String) : Option ByteArray :=
  t.entries.findSome? fun
    | (path, .file content) => if path == place then some content else none
    | (_, .directory) => none

/-- Whether there is a directory at a path. -/
def isDirectory (t : FileTree) (place : List String) : Bool :=
  place.isEmpty || t.entries.any fun
    | (path, .file _) => place.isPrefixOf path && place.length < path.length
    | (path, .directory) => place.isPrefixOf path

/-- The files below a directory, by the words of their paths from there. -/
def filesBelow (t : FileTree) (here : List String) : List (List String × ByteArray) :=
  t.entries.filterMap fun
    | (path, .file content) =>
      if here.isPrefixOf path then some (path.drop here.length, content) else none
    | (_, .directory) => none

/-- The number of bytes that a word of a path may have. -/
def wordLimit : Nat := 255

/-- The number of bytes that a path may have. -/
def pathLimit : Nat := 4095

/-- What the words of a path lead to from a directory that is not in the tree.  Of such a place
it is known only that there are directories above it. -/
def findOutside : List String → Except FileFault FileNode
  | [] => .ok (.directory [])
  | word :: rest =>
    if word == "" || word == "." || word == ".." then findOutside rest
    else if wordLimit < word.utf8ByteSize then .error .nameTooLong
    else .error .notFound

/-- What the words of a path lead to from a place in the tree. -/
def findFrom (t : FileTree) (here : List String) : List String → Except FileFault FileNode
  | [] =>
    match t.file? here with
    | some content => .ok (.file content)
    | none => .ok (.directory (t.filesBelow here))
  | word :: rest =>
    if !t.isDirectory here then .error .notADirectory
    else if word == "" || word == "." then t.findFrom here rest
    else if word == ".." then
      match here with
      | [] => findOutside rest
      | _ => t.findFrom here.dropLast rest
    else if wordLimit < word.utf8ByteSize then .error .nameTooLong
    else
      let next := here ++ [word]
      if t.isDirectory next || (t.file? next).isSome then t.findFrom next rest
      else .error .notFound

/-- What a path leads to from the top of the tree.  A path that starts with a slash leaves the
tree. -/
def find (t : FileTree) (path : String) : Except FileFault FileNode :=
  if pathLimit < path.utf8ByteSize then .error .nameTooLong
  else if path.startsWith "/" then findOutside (words path)
  else t.findFrom [] (words path)

/-- Adds an entry at a path that is written with slashes. -/
def insert (t : FileTree) (path : String) (entry : FileEntry) : FileTree :=
  ⟨t.entries ++ [((words path).filter fun word => word != "" && word != ".", entry)]⟩

end FileTree

/-! ### Sources -/

/-- The extension of a file name: what follows its last dot, unless nothing stands before. -/
def extension? (name : String) : Option String :=
  let cs := name.toList.reverse
  let ext := cs.takeWhile (· != '.')
  match cs.drop ext.length with
  | [] | ['.'] => none
  | _ => if name == ".." then none else some (String.ofList ext.reverse)

/-- Whether a file name is that of a source. -/
def isSourceName (name : String) : Bool :=
  match extension? name with
  | some ext => ext == "java" || ext == "aj"
  | none => false

/-- Whether one list of words comes before another or equals it, word by word. -/
def wordsLe : List String → List String → Bool
  | [], _ => true
  | _ :: _, [] => false
  | a :: as, b :: bs => a < b || (a == b && wordsLe as bs)

/-- The path of a file below a directory. -/
def joinPath (root : String) (words : List String) : String :=
  let rest := "/".intercalate words
  if root.isEmpty || root.endsWith "/" then root ++ rest else root ++ "/" ++ rest

/-- A file that was looked up, with the path under which it is reported. -/
structure FoundFile where
  path : String
  content : Except FileFault ByteArray

/-- The sources that a path leads to: the file itself, or the sources below a directory in
order. -/
def collect (path : String) (found : Except FileFault FileNode) :
    Except FileFault (List FoundFile) :=
  match found with
  | .error _ => .error (.nothingAt path)
  | .ok (.file content) => .ok [⟨path, .ok content⟩]
  | .ok (.directory files) =>
    let sources := files.filter fun (words, _) => (words.getLast?.map isSourceName).getD false
    let sorted := sources.mergeSort fun a b => wordsLe a.1 b.1
    .ok (sorted.map fun (words, content) => ⟨joinPath path words, .ok content⟩)

namespace FoundFile

/-- A path with the file it leads to; a directory is no file. -/
def ofNode (path : String) (found : Except FileFault FileNode) : FoundFile :=
  ⟨path, match found with
    | .error e => .error e
    | .ok (.file content) => .ok content
    | .ok (.directory _) => .error .isADirectory⟩

/-- The text of the file. -/
def text (f : FoundFile) : Except FileFault String :=
  match f.content with
  | .error e => .error e
  | .ok content => decodeText content

/-- The source unit of a file that can be read. -/
def source? (f : FoundFile) : Option SourceUnit :=
  match f.text with
  | .ok text => some ⟨f.path, text⟩
  | .error _ => none

/-- The report of a file that cannot be read. -/
def failure? (f : FoundFile) : Option UnitReport :=
  match f.text with
  | .ok _ => none
  | .error e => some ⟨f.path, .error (.file e)⟩

end FoundFile

/-- Compiles files: the reports of those that can be read come first, then those of the
others. -/
def Compiler.compileFiles (c : Compiler) (files : List FoundFile) : Option Compilation :=
  (c.compile (Adapter.silent : Adapter Unit) (files.filterMap FoundFile.source?)).map
    fun (compilation, _) => ⟨compilation.units ++ files.filterMap FoundFile.failure?⟩

end AspectLang
