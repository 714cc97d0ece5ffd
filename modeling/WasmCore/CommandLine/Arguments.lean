/-
The words of a command line.

There are two commands, each with a file to read and options in any order: `disasm` lists a body, `run` runs one with the
arguments that follow the file. From the first argument on, and after a word `--`, every word is taken as it is. Once `run`
has its file, even a word that looks like an option but is none is taken as an argument, or as the value that an option
still waits for. In place of a command the first word may ask for the version; then no other word counts.
-/
import WasmCore.Text.Numeral

namespace WasmCore.CommandLine

/-- the commands -/
inductive Verb where
  | disasm
  | run
deriving DecidableEq

/-- options that take a value -/
inductive Setting where
  | params
  | results
  | pages
  | maxPages
deriving DecidableEq

/-- options -/
inductive Switch where
  /-- the file holds a code entry -/
  | entry
  | setting (s : Setting)
deriving DecidableEq

def Switch.ofName? (verb : Verb) (name : String) : Option Switch :=
  match verb, name with
  | _, "entry" => some .entry
  | .run, "params" => some (.setting .params)
  | .run, "results" => some (.setting .results)
  | .run, "pages" => some (.setting .pages)
  | .run, "max-pages" => some (.setting .maxPages)
  | _, _ => none

/-- how a word looks -/
inductive Word where
  /-- two hyphens alone -/
  | separator
  /-- two hyphens, a name, and a value after an equals sign if there is one -/
  | long (name : String) (value : Option String)
  /-- one hyphen before something else -/
  | short
  | ordinary
deriving DecidableEq

def Word.ofString (s : String) : Word :=
  match s.toList with
  | ['-', '-'] => .separator
  | '-' :: '-' :: rest =>
    let name := rest.takeWhile (· != '=')
    match rest.dropWhile (· != '=') with
    | [] => .long (String.ofList name) none
    | _ :: value => .long (String.ofList name) (some (String.ofList value))
  | '-' :: _ :: _ => .short
  | _ => .ordinary

/-- what has been read of a command line -/
structure Draft where
  file : Option String
  entry : Bool
  /-- the values given, in their order -/
  settings : List (Setting × String)
  args : List String

/-- what the next word may be -/
inductive Mode where
  | options
  /-- the value of a setting -/
  | value (s : Setting)
  /-- the file or an argument, whatever it looks like -/
  | words

namespace Draft

def empty : Draft :=
  ⟨none, false, [], []⟩

/-- whether unknown options count as arguments -/
def takesAnything (verb : Verb) (d : Draft) : Bool :=
  verb = .run && d.file.isSome

def set (d : Draft) (s : Setting) (value : String) : Draft :=
  { d with settings := d.settings ++ [(s, value)] }

/-- the file, or an argument after it -/
def position (verb : Verb) (d : Draft) (mode : Mode) (word : String) : Option (Draft × Mode) :=
  match d.file, verb with
  | none, _ => some ({ d with file := some word }, mode)
  | some _, .run => some ({ d with args := d.args ++ [word] }, .words)
  | some _, .disasm => none

/-- an option, with the value that is attached to it -/
def switch (d : Draft) (value : Option String) : Switch → Option (Draft × Mode)
  | .entry => if d.entry || value.isSome then none else some ({ d with entry := true }, .options)
  | .setting s =>
    match value with
    | some v => some (d.set s v, .options)
    | none => some (d, .value s)

/-- one word more; nothing if the command line is refused -/
def step (verb : Verb) : Draft × Mode → String → Option (Draft × Mode)
  | (d, .words), word => d.position verb .words word
  | (d, .options), word =>
    match Word.ofString word with
    | .separator => some (d, .words)
    | .ordinary => d.position verb .options word
    | .short => if d.takesAnything verb then d.position verb .words word else none
    | .long name value =>
      match Switch.ofName? verb name with
      | some switch => d.switch value switch
      | none => if d.takesAnything verb then d.position verb .words word else none
  | (d, .value s), word =>
    match Word.ofString word with
    | .separator => none
    | .ordinary => some (d.set s word, .options)
    | .short => if d.takesAnything verb then some (d.set s word, .options) else none
    | .long name _ =>
      if (Switch.ofName? verb name).isNone && d.takesAnything verb then some (d.set s word, .options) else none

/-- all values given for a setting -/
def values (d : Draft) (s : Setting) : List String :=
  (d.settings.filter fun given => given.1 == s).map Prod.snd

/-- the names in the values of a setting, separated by commas -/
def names (d : Draft) (s : Setting) : List String :=
  (d.values s).flatMap fun v => v.splitOn ","

/-- a count of 64 bits, given at most once -/
def count? (d : Draft) (s : Setting) : Option (Option Nat) :=
  match d.values s with
  | [] => some none
  | [v] => (Numeral.unsigned? v.toList).bind fun n => if n < UInt64.size then some (some n) else none
  | _ => none

end Draft

/-- where the body is -/
structure Input where
  file : String
  entry : Bool

/-- how to run it -/
structure RunOptions where
  params : List String
  results : List String
  pages : Nat
  maxPages : Option Nat
  args : List String

inductive Command where
  | disasm (input : Input)
  | run (input : Input) (options : RunOptions)

namespace Command

def input : Command → Input
  | disasm input => input
  | run input _ => input

/-- the command that a finished draft stands for -/
def ofDraft? (verb : Verb) (d : Draft) : Option Command := do
  let file ← d.file
  if file.isEmpty then none
  let pages ← d.count? .pages
  let maxPages ← d.count? .maxPages
  let input : Input := ⟨file, d.entry⟩
  match verb with
  | .disasm => return disasm input
  | .run => return run input ⟨d.names .params, d.names .results, pages.getD 1, maxPages, d.args⟩

/-- the command with the given verb and words -/
def ofWords? (verb : Verb) (words : List String) : Option Command := do
  let (d, mode) ← words.foldlM (Draft.step verb) (Draft.empty, .options)
  match mode with
  | .value _ => none
  | _ => ofDraft? verb d

end Command

/-- what a command line asks for -/
inductive Request where
  | version
  | command (c : Command)

namespace Request

/-- whether the word is the option for the version; its short form may have anything after it -/
def isVersionOption (word : String) : Bool :=
  match word.toList with
  | '-' :: 'V' :: _ => true
  | _ => word == "--version"

/-- the request in the words of a command line, if they are one -/
def ofArguments? : List String → Option Request
  | [] => none
  | "disasm" :: words => (Command.ofWords? .disasm words).map command
  | "run" :: words => (Command.ofWords? .run words).map command
  | word :: _ => if isVersionOption word then some version else none

end Request

end WasmCore.CommandLine
