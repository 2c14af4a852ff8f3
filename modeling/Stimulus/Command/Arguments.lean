import Stimulus.Command.Request

/-!
# Arguments

Reads a request from the words of a command line. First every word gets a role from its looks
alone: an option, a plain word, the separator, or a word that looks like an option and is none.
Then options take their values from left to right. The first plain word of the front part names
the command, and all words behind it belong to the command.
-/
namespace Stimulus.Command

/-- What stands in a word behind the spelling of an option. Behind a long spelling it is a value;
behind a letter it may also be further letters. -/
inductive Attachment
  | nothing
  | value (text : List Char)
  | letters (text : List Char)
  deriving DecidableEq, Repr

/-- What a word is to a part of the arguments. -/
inductive Role
  | plain
  | separator
  | option (key : Key) (attached : Attachment)
  | unknown
  deriving DecidableEq, Repr

/-! ## Roles -/

/-- Whether a word is over, up to a line feed at its end. -/
def isLineEnd : List Char → Bool
  | [] | ['\n'] => true
  | _ => false

def isNumeralDigit (c : Char) : Bool := (Text.decimalDigit? c).isSome

/-- Whether digits, at least one, are all of a word. -/
def isDigits (cs : List Char) : Bool :=
  !(cs.takeWhile isNumeralDigit).isEmpty && isLineEnd (cs.dropWhile isNumeralDigit)

/-- Whether a word is a minus sign and an integer or a decimal fraction. -/
def isNegativeNumber : List Char → Bool
  | '-' :: cs =>
    isDigits cs || match cs.dropWhile isNumeralDigit with
      | '.' :: fraction => isDigits fraction
      | _ => false
  | _ => false

/-- The option of a part with exactly this spelling. -/
def Part.key? (part : Part) (spelling : String) : Option Key :=
  part.keys.find? (·.names.contains spelling)

/-- The spellings in a part that begin with a text, each with its option. -/
def Part.matching (part : Part) (start : List Char) : List (String × Key) :=
  part.keys.flatMap fun key =>
    (key.names.filter fun name => start.isPrefixOf name.toList).map (·, key)

/-- The role of a word that begins with a minus sign and is no option of the part: a plain word if
it is a negative number or has a space. -/
def oddRole (cs : List Char) : Role :=
  if isNegativeNumber cs || cs.contains ' ' then .plain else .unknown

/-- What stands behind the first equals sign of a word. -/
def afterEquals (cs : List Char) : Attachment :=
  match cs.dropWhile (· != '=') with
  | [] => .nothing
  | _ :: text => .value text

/-- The role of a word that begins with two minus signs: an option, or the beginning of a single
spelling of one. What stands behind the first equals sign is its value. -/
def longRole (part : Part) (word : String) : Except Complaint Role :=
  let cs := word.toList
  let start := cs.takeWhile (· != '=')
  let attached := afterEquals cs
  match part.key? (String.ofList start) with
  | some key => .ok (.option key attached)
  | none =>
    match part.matching start with
    | [] => .ok (oddRole cs)
    | [(_, key)] => .ok (.option key attached)
    | several => .error (.ambiguous word (several.map Prod.fst))

/-- What is attached to a letter; an equals sign may set it off. -/
def afterLetter : List Char → Attachment
  | [] => .nothing
  | '=' :: text => .letters text
  | text => .letters text

/-- The role of a word that begins with a single minus sign: an option of one letter, with what is
attached to it. -/
def shortRole (part : Part) (letter : Char) (text : List Char) : Role :=
  match part.key? (String.ofList ['-', letter]) with
  | some key => .option key (afterLetter text)
  | none => oddRole ('-' :: letter :: text)

def role (part : Part) (word : String) : Except Complaint Role :=
  match word.toList with
  | ['-', '-'] => .ok .separator
  | '-' :: '-' :: _ => longRole part word
  | '-' :: letter :: text => .ok (shortRole part letter text)
  | _ => .ok .plain

/-- The roles of all words. Behind the separator every word is plain. -/
def roles (part : Part) : List String → Except Complaint (List (String × Role))
  | [] => .ok []
  | word :: rest =>
    match role part word with
    | .error complaint => .error complaint
    | .ok .separator => .ok ((word, .separator) :: rest.map (·, .plain))
    | .ok role => (roles part rest).map ((word, role) :: ·)

/-! ## Options -/

/-- The options whose letters are run together in a word, from `key` on. Where a letter is no
option of the part, all that is left would be a value of the option before it. -/
def runTogether (part : Part) (key : Key) : List Char → Except Complaint (List Key)
  | [] => .ok [key]
  | letter :: rest =>
    match part.key? (String.ofList ['-', letter]) with
    | none => .error (.ignoredValue key (String.ofList (letter :: rest)))
    | some next => (runTogether part next rest).map (key :: ·)

/-- The options of a word that begins with an option without a value. -/
def flagsOf (part : Part) (key : Key) : Attachment → Except Complaint (List Key)
  | .nothing => .ok [key]
  | .value text => .error (.ignoredValue key (String.ofList text))
  | .letters [] => .error (.ignoredValue key "")
  | .letters text => runTogether part key text

/-- Values as far as they are read, and the words that nobody has taken. -/
structure Progress where
  values : Values := {}
  leftOver : List String := []
  deriving DecidableEq, Repr

namespace Progress

def leave (p : Progress) (words : List String) : Progress :=
  { p with leftOver := p.leftOver ++ words }

/-- Takes an option without a value, and those that are run together with it. -/
def takeFlags (part : Part) (p : Progress) (key : Key) (attached : Attachment) :
    Except Stop Progress :=
  match flagsOf part key attached with
  | .error complaint => .error (.refused part complaint)
  | .ok keys =>
    if keys.contains .help then .error (.help part)
    else .ok { p with values := keys.foldl (fun v key => v.flag key) p.values }

/-- Takes an option with its value. -/
def takeValue (part : Part) (p : Progress) (key : Key) (value : String) : Except Stop Progress :=
  match p.values.put key value with
  | .error complaint => .error (.refused part complaint)
  | .ok values => .ok { p with values }

/-- Takes an option with the text that is attached to it. Two minus signs are no value. -/
def takeAttached (part : Part) (p : Progress) (key : Key) (text : List Char) :
    Except Stop Progress :=
  if text = ['-', '-'] then .ok { p with values := p.values.putBlank key }
  else p.takeValue part key (String.ofList text)

/-- Reads the options before the command; also gives the words from the command on. -/
def readFront (p : Progress) : List (String × Role) → Except Stop (Progress × List String)
  | [] => .ok (p, [])
  | (word, .unknown) :: rest => (p.leave [word]).readFront rest
  | (_, .option key attached) :: rest =>
    match p.takeFlags .front key attached with
    | .error stop => .error stop
    | .ok p => p.readFront rest
  | words => .ok (p, words.map Prod.fst)

/-- Reads the options of a command. A value that is not attached to its option is the plain word
behind it. -/
def readOptions (part : Part) (p : Progress) : List (String × Role) → Except Stop Progress
  | [] => .ok p
  | (word, .separator) :: rest => .ok (p.leave (word :: rest.map Prod.fst))
  | (_, .option key attached) :: rest =>
    if key.hasValue then
      match attached, rest with
      | .value text, rest | .letters text, rest =>
        match p.takeAttached part key text with
        | .error stop => .error stop
        | .ok p => p.readOptions part rest
      | .nothing, (value, .plain) :: rest =>
        match p.takeValue part key value with
        | .error stop => .error stop
        | .ok p => p.readOptions part rest
      | .nothing, _ => .error (.refused part (.noValue key))
    else
      match p.takeFlags part key attached with
      | .error stop => .error stop
      | .ok p => p.readOptions part rest
  | (word, _) :: rest => (p.leave [word]).readOptions part rest

end Progress

/-! ## Requests -/

/-- Arguments have to be taken to the last word. -/
def nothingLeft (p : Progress) : Except Stop Unit :=
  if p.leftOver.isEmpty then .ok () else .error (.refused .front (.leftOver p.leftOver))

/-- Reads the words of a command behind its name. -/
def readCommand (p : Progress) (name : Name) (words : List String) : Except Stop Request := do
  let part := Part.command name
  let roles ← (roles part words).mapError (.refused part)
  let p ← p.readOptions part roles
  let missing := part.required.filter fun key => !p.values.has key
  if !missing.isEmpty then throw (.refused part (.missing missing))
  nothingLeft p
  return { verbosity := p.values.verbosity, task := p.values.task name }

/-- Reads the words of a command line. -/
def readRequest (words : List String) : Except Stop Request := do
  let roles ← (roles .front words).mapError (.refused .front)
  let (p, rest) ← Progress.readFront {} roles
  match rest with
  | [] | ["--"] =>
    nothingLeft (p.leave rest)
    throw .noCommand
  | word :: words =>
    match Name.ofText? word with
    | some name => readCommand p name words
    | none => throw (.refused .front (.unknownCommand word))

end Stimulus.Command
