import FlakeInputs.Text.Basic
import FlakeInputs.Text.Digit

/-!
# Options on a command line

How the words of a command line are read as options, values of options and
operands.

A long option can be cut short as long as it stays unique, and its value stands
behind an equals sign or in the next word.  Letters of short options can stand
together.  A double dash ends the options, and it is never a value: an option with
a double dash behind its equals sign is given without a value.
-/

namespace FlakeInputs
namespace Command

/-- Why a command line asks for no work: it asks for help, or it makes no sense. -/
inductive Stop
  | help
  | usage
deriving DecidableEq, Repr

/-- One way to write an option: its name with the dashes, what the option means, and
whether a value follows. -/
structure Switch (α : Type) where
  name : Text
  meaning : α
  takesValue : Bool

/-- An option that was given, with the value that it was given. -/
structure Given (α : Type) where
  meaning : α
  value? : Option Text

/-- How a word of the command line reads.  A switch comes with the text that is
attached to it, if there is any. -/
inductive Reading (α : Type)
  | operand
  | terminator
  | unknown
  | switch (switch : Switch α) (attached? : Option Text)

/-- A word and how it reads. -/
structure Argument (α : Type) where
  text : Text
  reading : Reading α

section
variable {α σ : Type} (table : List (Switch α))

/-! ## Reading words -/

/-- The switch of a given name. -/
def named? (name : Text) : Option (Switch α) :=
  table.find? fun s => s.name = name

/-- A minus sign and a decimal number, which is an operand. -/
def isNegativeNumber : Text → Bool
  | '-' :: t =>
    let t := if t.getLast? = some '\n' then t.dropLast else t
    match t.dropWhile isDecimalDigit with
    | [] => !t.isEmpty
    | '.' :: fraction => !fraction.isEmpty && fraction.all isDecimalDigit
    | _ => false
  | _ => false

/-- The text before an equals sign, and the text behind it if there is one. -/
def cutAtEquals (t : Text) : Text × Option Text :=
  match t.dropWhile (· != '=') with
  | '=' :: value => (t.takeWhile (· != '='), some value)
  | _ => (t, none)

/-- The switches that a word with a double dash can be short for. -/
def longCandidates (word : Text) : List (Reading α) :=
  let (start, value?) := cutAtEquals word
  (table.filter fun s => start.isPrefixOf s.name).map fun s => .switch s value?

/-- The switches that a word with a single dash can begin with or be short for. -/
def shortCandidates (word : Text) : List (Reading α) :=
  table.filterMap fun s =>
    if s.name = word.take 2 then some (.switch s (some (word.drop 2)))
    else if word.isPrefixOf s.name then some (.switch s none)
    else none

/-- How a word that is no full name of a switch reads. -/
def readPartly (word : Text) (candidates : List (Reading α)) : Except Stop (Reading α) :=
  match candidates with
  | [reading] => .ok reading
  | [] => .ok (if isNegativeNumber word || word.contains ' ' then .operand else .unknown)
  | _ => .error .usage

/-- How a word before the end of the options reads.  A word that could be several
switches makes no sense. -/
def read (word : Text) : Except Stop (Reading α) :=
  match word with
  | '-' :: second :: _ =>
    match named? table word with
    | some s => .ok (.switch s none)
    | none =>
      match cutAtEquals word with
      | (name, some value) =>
        match named? table name with
        | some s => .ok (.switch s (some value))
        | none => partly second
      | (_, none) => partly second
  | _ => .ok .operand
where
  /-- Tries the switches that the word can be short for. -/
  partly (second : Char) : Except Stop (Reading α) :=
    readPartly word
      (if second = '-' then longCandidates table word else shortCandidates table word)

/-- How the words of a command line read.  All words behind a double dash are
operands. -/
def readAll : List Text → Except Stop (List (Argument α))
  | [] => .ok []
  | ['-', '-'] :: rest => .ok (⟨['-', '-'], .terminator⟩ :: rest.map fun t => ⟨t, .operand⟩)
  | word :: rest => do
    let reading ← read table word
    return ⟨word, reading⟩ :: (← readAll rest)

/-! ## Options of one word -/

/-- The options that one word gives.  `open?` is a switch that nothing is attached
to, so that its value, if it takes one, is the next word. -/
structure Cluster (α : Type) where
  given : List (Given α)
  open? : Option (Switch α)

/-- The cluster with one more option before it. -/
def Cluster.after (given : Given α) (c : Cluster α) : Cluster α :=
  { c with given := given :: c.given }

/-- Whether a switch is a dash and a letter. -/
def Switch.isShort (s : Switch α) : Bool :=
  s.name.length = 2

/-- The value that a text attached to an option stands for; a double dash stands for
none. -/
def value? (text : Text) : Option Text :=
  if text = ['-', '-'] then none else some text

/-- The options that a switch with text attached to it gives.  The text is the value
if the switch takes one.  Otherwise it is the letters of more switches, which only a
short switch can have behind it. -/
def attached (s : Switch α) (text : Text) : Except Stop (Cluster α) :=
  if s.takesValue then .ok ⟨[⟨s.meaning, value? text⟩], none⟩
  else
    match text with
    | [] => .error .usage
    | letter :: rest =>
      match s.isShort, named? table ['-', letter] with
      | true, some next =>
        if rest.isEmpty then .ok ⟨[⟨s.meaning, none⟩], some next⟩
        else do return (← attached next rest).after ⟨s.meaning, none⟩
      | _, _ => .error .usage
termination_by text.length

/-- The options that a switch gives. -/
def cluster (s : Switch α) : Option Text → Except Stop (Cluster α)
  | none => .ok ⟨[], some s⟩
  | some text => attached table s text

/-- The word that can be the value of the switch before it. -/
def nextValue? : List (Argument α) → Option Text
  | ⟨text, .operand⟩ :: _ => some text
  | _ => none

/-- The options that a cluster gives in all, and whether the next word is used up. -/
def Cluster.complete (c : Cluster α) (next? : Option Text) :
    Except Stop (List (Given α) × Bool) :=
  match c.open? with
  | none => .ok (c.given, false)
  | some s =>
    if s.takesValue then
      match next? with
      | some value => .ok (c.given ++ [⟨s.meaning, some value⟩], true)
      | none => .error .usage
    else .ok (c.given ++ [⟨s.meaning, none⟩], false)

/-! ## Command lines -/

/-- What has been made of a command line so far: the settings, the operand, and
whether anything is left over. -/
structure Progress (σ : Type) where
  settings : σ
  operand? : Option Text
  extra : Bool

variable (give : σ → Given α → Except Stop σ)

/-- Takes in the options that a switch gives, in their order.  The flag tells that
the next word is used up. -/
def takeSwitch (p : Progress σ) (s : Switch α) (attached? next? : Option Text) :
    Except Stop (Progress σ × Bool) := do
  let (given, used) ← (← cluster table s attached?).complete next?
  return ({ p with settings := ← given.foldlM give p.settings }, used)

theorem length_ite_drop_le (used : Bool) (words : List (Argument α)) :
    (if used then words.drop 1 else words).length ≤ words.length := by
  cases used
  · exact Nat.le_refl _
  · exact (List.drop_sublist 1 words).length_le

/-- Takes in the options before the first operand, and gives what is behind
them. -/
def leading (p : Progress σ) (words : List (Argument α)) :
    Except Stop (Progress σ × List (Argument α)) :=
  match words with
  | ⟨_, .unknown⟩ :: rest => leading { p with extra := true } rest
  | ⟨_, .switch s attached?⟩ :: rest => do
    let (p, used) ← takeSwitch table give p s attached? (nextValue? rest)
    leading p (if used then rest.drop 1 else rest)
  | words => .ok (p, words)
termination_by words.length
decreasing_by
  · exact Nat.lt_succ_self _
  · exact Nat.lt_succ_of_le (length_ite_drop_le used rest)

/-- The words without a terminator in front. -/
def dropTerminator : List (Argument α) → List (Argument α)
  | ⟨_, .terminator⟩ :: rest => rest
  | words => words

theorem length_dropTerminator_le (words : List (Argument α)) :
    (dropTerminator words).length ≤ words.length := by
  unfold dropTerminator
  split <;> simp

/-- Takes in a command line that has at most one operand.  A terminator can stand on
either side of the operand. -/
def arguments (wantsOperand : Bool) (p : Progress σ) (words : List (Argument α)) :
    Except Stop (Progress σ) :=
  match words with
  | [] => .ok p
  | ⟨_, .unknown⟩ :: rest => arguments wantsOperand { p with extra := true } rest
  | ⟨_, .switch s attached?⟩ :: rest => do
    let (p, used) ← takeSwitch table give p s attached? (nextValue? rest)
    arguments wantsOperand p (if used then rest.drop 1 else rest)
  | ⟨text, .operand⟩ :: rest =>
    if wantsOperand && p.operand?.isNone then
      arguments wantsOperand { p with operand? := some text } (dropTerminator rest)
    else arguments wantsOperand { p with extra := true } rest
  | ⟨_, .terminator⟩ :: rest =>
    match nextValue? rest, wantsOperand && p.operand?.isNone with
    | some text, true => arguments wantsOperand { p with operand? := some text } (rest.drop 1)
    | _, _ => arguments wantsOperand { p with extra := true } rest
termination_by words.length
decreasing_by
  · exact Nat.lt_succ_self _
  · exact Nat.lt_succ_of_le (length_ite_drop_le used rest)
  · exact Nat.lt_succ_of_le (length_dropTerminator_le rest)
  · exact Nat.lt_succ_self _
  · exact Nat.lt_succ_of_le (List.drop_sublist 1 rest).length_le
  · exact Nat.lt_succ_self _

end
end Command
end FlakeInputs
