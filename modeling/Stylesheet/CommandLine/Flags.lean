import Stylesheet.Text.Quoted

/-!
# Flags

How the arguments of a command are taken apart. A flag is written with two dashes and
its name, or with one dash and its letter; letters can share a dash. Switches take a
value only after an equals sign, other flags take the next argument as well. Two dashes
alone end the flags.

## Main definitions

* `FlagKind`, `Flag` — the flags of a command
* `FlagError` — why arguments cannot be taken apart
* `Arguments`, `parseArgs` — the flags set and the arguments left
* `flagUsages` — how flags are described
-/

namespace Stylesheet

open Text

/-- What a flag takes: a truth value, a text, or any number of texts. -/
inductive FlagKind where
  | switch (default : Bool)
  | text (default : Text)
  | texts
  deriving DecidableEq

/-- A flag of a command. -/
structure Flag where
  name : Text
  letter : Option UInt8 := none
  kind : FlagKind
  help : Text
  deriving DecidableEq

/-- A flag that needs no value. -/
def Flag.isSwitch (f : Flag) : Bool :=
  match f.kind with
  | .switch _ => true
  | _ => false

/-- How messages name a flag. -/
def Flag.shown (f : Flag) : Text :=
  match f.letter with
  | some c => ch '-' :: c :: of ", --" ++ f.name
  | none => of "--" ++ f.name

/-- Why arguments cannot be taken apart. -/
inductive FlagError where
  | malformed (arg : Text)
  | unknown (name : Text)
  | unknownLetter (letter : UInt8) (letters : Text)
  | needsValue (arg : Text)
  | letterNeedsValue (letter : UInt8) (letters : Text)
  | notBool (flag value : Text)
  deriving DecidableEq

/-- A letter in single quotes, escaped where it has to be. -/
def quotedLetter (c : UInt8) : Text :=
  let shown :=
    if c = ch '\'' then of "\\'"
    else if c = ch '"' then [c]
    else ((quoted (of (Char.ofNat c.toNat).toString)).drop 1).dropLast
  ch '\'' :: shown ++ [ch '\'']

/-- The wording of an error. -/
def FlagError.message : FlagError → Text
  | .malformed arg => of "bad flag syntax: " ++ arg
  | .unknown name => of "unknown flag: --" ++ name
  | .unknownLetter c letters =>
    of "unknown shorthand flag: " ++ quotedLetter c ++ of " in -" ++ letters
  | .needsValue arg => of "flag needs an argument: " ++ arg
  | .letterNeedsValue c letters =>
    of "flag needs an argument: " ++ quotedLetter c ++ of " in -" ++ letters
  | .notBool flag value =>
    of "invalid argument " ++ quoted value ++ of " for " ++ quoted flag ++
      of " flag: strconv.ParseBool: parsing " ++ quoted value ++ of ": invalid syntax"

/-- The values flags were set to, in order, and the arguments that are no flags. -/
structure Arguments where
  values : List (Text × Text) := []
  args : List Text := []
  deriving DecidableEq

/-- The truth value of a word. -/
def boolWord? (t : Text) : Option Bool :=
  if ["1", "t", "T", "TRUE", "true", "True"].any (of · = t) then some true
  else if ["0", "f", "F", "FALSE", "false", "False"].any (of · = t) then some false
  else none

namespace Arguments

/-- Sets a flag. -/
def set (p : Arguments) (f : Flag) (value : Text) : Except FlagError Arguments :=
  if f.isSwitch && (boolWord? value).isNone then .error (.notBool f.shown value)
  else .ok { p with values := p.values ++ [(f.name, value)] }

/-- The last value a flag was set to. -/
def value? (p : Arguments) (name : String) : Option Text :=
  (p.values.reverse.find? fun v => v.1 = of name).map (·.2)

/-- Every value a flag was set to. -/
def all (p : Arguments) (name : String) : List Text :=
  (p.values.filter fun v => v.1 = of name).map (·.2)

/-- Every value of a flag that takes any number of texts. One empty text alone counts as
none. -/
def texts (p : Arguments) (name : String) : List Text :=
  let values := p.all name
  if values = [[]] then [] else values

/-- A switch, if it was set. -/
def flag? (p : Arguments) (name : String) : Option Bool := (p.value? name).bind boolWord?

/-- A switch that is off unless set. -/
def isOn (p : Arguments) (name : String) : Bool := (p.flag? name).getD false

end Arguments

/-- The flag with a name. -/
def flagNamed? (flags : List Flag) (name : Text) : Option Flag := flags.find? (·.name = name)

/-- The flag with a letter. -/
def flagLettered? (flags : List Flag) (c : UInt8) : Option Flag :=
  flags.find? (·.letter = some c)

/-- The flags set by an argument with two dashes, and whether it took the next argument. -/
def parseLong (flags : List Flag) (p : Arguments) (arg : Text) (next : Option Text) :
    Except FlagError (Arguments × Bool) :=
  let body := arg.drop 2
  if head0 body = ch '-' || head0 body = ch '=' then .error (.malformed arg)
  else
    let (name, value) := match cut (ch '=') body with
      | some (name, value) => (name, some value)
      | none => (body, none)
    match flagNamed? flags name with
    | none => .error (.unknown name)
    | some f =>
      match value, next with
      | some v, _ => (p.set f v).map (·, false)
      | none, some v =>
        if f.isSwitch then (p.set f (of "true")).map (·, false) else (p.set f v).map (·, true)
      | none, none =>
        if f.isSwitch then (p.set f (of "true")).map (·, false) else .error (.needsValue arg)

/-- The flags set by the letters after one dash, and whether they took the next
argument. -/
def parseLetters (flags : List Flag) (next : Option Text) : Arguments → Text →
    Except FlagError (Arguments × Bool)
  | p, [] => .ok (p, false)
  | p, c :: r =>
    match flagLettered? flags c with
    | none => .error (.unknownLetter c (c :: r))
    | some f =>
      if head0 r = ch '=' && r.length > 1 then (p.set f (r.drop 1)).map (·, false)
      else if f.isSwitch then
        match p.set f (of "true") with
        | .error e => .error e
        | .ok p => parseLetters flags next p r
      else if !r.isEmpty then (p.set f r).map (·, false)
      else match next with
        | some v => (p.set f v).map (·, true)
        | none => .error (.letterNeedsValue c (c :: r))

/-- Takes arguments apart; `taken` says that a flag has taken the first one. -/
def parseFrom (flags : List Flag) : (taken : Bool) → Arguments → List Text →
    Except FlagError Arguments
  | _, p, [] => .ok p
  | true, p, _ :: rest => parseFrom flags false p rest
  | false, p, arg :: rest =>
    if arg.length < 2 || head0 arg ≠ ch '-' then
      parseFrom flags false { p with args := p.args ++ [arg] } rest
    else if arg = of "--" then .ok { p with args := p.args ++ rest }
    else
      let read :=
        if at0 arg 1 = ch '-' then parseLong flags p arg rest.head?
        else parseLetters flags rest.head? p (arg.drop 1)
      match read with
      | .error e => .error e
      | .ok (p, taken) => parseFrom flags taken p rest

/-- Takes the arguments of a command apart. -/
def parseArgs (flags : List Flag) (args : List Text) : Except FlagError Arguments :=
  parseFrom flags false {} args

/-- An argument that takes the next one as its value, as far as these flags tell. -/
def takesNext (flags : List Flag) (arg : Text) : Bool :=
  if starts arg (of "--") then
    !hasByte arg (ch '=') && !((flagNamed? flags (arg.drop 2)).map Flag.isSwitch).getD false
  else
    starts arg (of "-") && !hasByte arg (ch '=') && arg.length = 2 &&
      !((flagLettered? flags (at0 arg 1)).map Flag.isSwitch).getD false

/-- The arguments that are no flags, as far as these flags tell. A flag that takes the
last argument ends them. -/
def withoutFlags (flags : List Flag) : (taken : Bool) → List Text → List Text
  | _, [] => []
  | true, _ :: rest => withoutFlags flags false rest
  | false, arg :: rest =>
    if arg = of "--" then []
    else if takesNext flags arg then
      if rest.length ≤ 1 then [] else withoutFlags flags true rest
    else if !arg.isEmpty && !starts arg (of "-") then arg :: withoutFlags flags false rest
    else withoutFlags flags false rest

/-- Arguments without the first that is this one and no flag or value of a flag. -/
def eraseFirst (flags : List Flag) (x : Text) : (taken : Bool) → List Text → List Text
  | _, [] => []
  | true, arg :: rest => arg :: eraseFirst flags x false rest
  | false, arg :: rest =>
    if arg = of "--" then arg :: rest
    else if takesNext flags arg then arg :: eraseFirst flags x true rest
    else if !starts arg (of "-") && arg = x then rest
    else arg :: eraseFirst flags x false rest

/-! ### Descriptions -/

/-- What a flag takes, as descriptions show it. -/
def Flag.valueName (f : Flag) : Text :=
  match f.kind with
  | .switch _ => []
  | .text _ => of " string"
  | .texts => of " stringArray"

/-- The default of a flag, as descriptions show it. -/
def Flag.defaultText (f : Flag) : Text :=
  match f.kind with
  | .switch true => of " (default true)"
  | .switch false => []
  | .text t => if t.isEmpty then [] else of " (default " ++ quoted t ++ [ch ')']
  | .texts => []

/-- How a flag is written. -/
def Flag.signature (f : Flag) : Text :=
  (match f.letter with
    | some c => of "  -" ++ c :: of ", --"
    | none => of "      --") ++ f.name ++ f.valueName

/-- Flags with their help, by name, one on a line. -/
def flagUsages (flags : List Flag) : Text :=
  let sorted := flags.mergeSort fun f g => le f.name g.name
  let width := sorted.foldl (fun w f => max w f.signature.length) 0
  join [ch '\n'] (sorted.map fun f =>
    f.signature ++ List.replicate (width - f.signature.length + 3) (ch ' ') ++ f.help ++
      f.defaultText)

end Stylesheet
