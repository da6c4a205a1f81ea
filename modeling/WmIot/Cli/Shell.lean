import WmIot.Lib.CString
import WmIot.Lib.TextBuffer

/-!
# The command line

`letter_shell.c`, as `letter_shell_cfg.h` sets it up: exported commands, long help, quotes kept, control keys
filtered, no password, no variables and no keys of the application. The buffer and the rows of the history are
arrays of `SHELL_COMMAND_MAX_LENGTH` bytes. A function gives the shell it leaves and the bytes it writes.
-/

namespace WmIot.Cli
open CString (Byte lit)
open TextBuffer
set_option autoImplicit false

/-- `SHELL_CommandTypeDef`. A command is known by what it writes. -/
structure Command where
  name : List Byte
  function : List (List Byte) → List Byte
  desc : List Byte
  help : Option (List Byte)

/-- The configuration, the prompt and the exported commands. -/
structure Setup where
  commandMaxLength : Nat
  parameterMaxNumber : Nat
  historyMaxNumber : Nat
  command : List Byte
  commands : List Command

inductive InputMode where
  | normal
  | ansiCsi
  | ansiEsc
  deriving DecidableEq

/-- `SHELL_TypeDef`. -/
structure Shell where
  buffer : Nat → Byte
  length : Nat
  cursor : Nat
  history : Nat → Nat → Byte
  historyCount : Nat
  historyFlag : Nat
  historyOffset : Int
  inputMode : InputMode
  tabFlag : Bool

def crlf : List Byte := lit "\r\n"
def textFunList : List Byte := lit "\r\nCOMMAND LIST:\r\n\r\n"
def textCmdNone : List Byte := lit "Command not found\r\n"
def textCmdTooLong : List Byte := lit "\r\nWarnig: Command is too long\r\n"

def space : Byte := 0x20#8
def backspace : Byte := 0x08#8

/-- `shellInit`, without the banner. -/
def shellInit (S : Setup) (sh : Shell) : Shell × List Byte :=
  ({ sh with length := 0, cursor := 0, historyCount := 0, historyFlag := 0, historyOffset := 0,
             inputMode := .normal, tabFlag := false }, S.command)

/-- `shellStringCompare`: the length of the common prefix. -/
def shellStringCompare : List Byte → List Byte → Nat
  | a :: dest, b :: src => if a = b then shellStringCompare dest src + 1 else 0
  | _, _ => 0

/-- `shellDelete`. -/
def shellDelete (length : Nat) : List Byte := (List.replicate length [backspace, space, backspace]).flatten

/-- `shellClearLine`. -/
def shellClearLine (sh : Shell) : List Byte :=
  List.replicate (sh.length - sh.cursor) space ++ shellDelete sh.length

/-- `shellDisplayItem`. -/
def shellDisplayItem (c : Command) : List Byte :=
  c.name ++ List.replicate (if c.name.length < 22 then 22 - c.name.length else 4) space ++ lit "-- " ++ c.desc ++ crlf

/-- `shellHelp`, with `argv` and `argc` its length. -/
def shellHelp (S : Setup) (argv : List (List Byte)) : List Byte :=
  match argv with
  | [_] => textFunList ++ S.commands.flatMap shellDisplayItem
  | [_, name] =>
    match S.commands.find? fun c => name = c.name with
    | some c => c.desc ++ crlf ++
        match c.help with
        | some usage => lit "usage:\r\n" ++ lit "    " ++ usage ++ crlf
        | none => []
    | none => textCmdNone
  | _ => []

/-! ## The history -/

/-- `shellHistoryAdd`. With `historyFlag` 0 the line is compared with the bytes before the history, and `stale` is
the result. -/
def shellHistoryAdd (S : Setup) (stale : Bool) (sh : Shell) : Shell :=
  let sh := { sh with historyOffset := 0 }
  let line := cstring sh.buffer 0 S.commandMaxLength
  let same := if sh.historyFlag = 0 then stale
    else decide (cstring (sh.history (sh.historyFlag - 1)) 0 S.commandMaxLength = line)
  if same then sh
  else
    let history := Function.update sh.history sh.historyFlag (copyString (sh.history sh.historyFlag) 0 line)
    let flag := if line.length ≠ 0 then sh.historyFlag + 1 else sh.historyFlag
    let count := if S.historyMaxNumber < sh.historyCount + 1 then S.historyMaxNumber else sh.historyCount + 1
    { sh with
      history := history
      historyCount := count
      historyFlag := if S.historyMaxNumber ≤ flag then 0 else flag }

/-- The line that `historyOffset` is at. -/
def historyLine (S : Setup) (sh : Shell) : List Byte :=
  cstring (sh.history ((sh.historyFlag + S.historyMaxNumber + sh.historyOffset : Int).tmod S.historyMaxNumber).toNat) 0
    S.commandMaxLength

/-- The second part of `shellHistory`: the line at `historyOffset` replaces the one being edited. -/
def showHistory (S : Setup) (sh : Shell) : Shell × List Byte :=
  let cleared := shellClearLine sh
  if sh.historyOffset = 0 then ({ sh with cursor := 0, length := 0 }, cleared)
  else
    let line := historyLine S sh
    let sh := { sh with buffer := copyString sh.buffer 0 line, length := line.length }
    if line.length = 0 then (sh, cleared)
    else ({ sh with cursor := sh.length }, cleared ++ cstring sh.buffer 0 S.commandMaxLength)

/-- `shellHistory(shell, 0)`. -/
def shellHistoryUp (S : Setup) (sh : Shell) : Shell × List Byte :=
  let most : Int := if sh.historyFlag < sh.historyCount then sh.historyCount else sh.historyFlag
  showHistory S { sh with historyOffset := if sh.historyOffset ≤ -most then -most else sh.historyOffset - 1 }

/-- `shellHistory(shell, 1)`. -/
def shellHistoryDown (S : Setup) (sh : Shell) : Shell × List Byte :=
  if 0 < sh.historyOffset + 1 then ({ sh with historyOffset := 0 }, [])
  else showHistory S { sh with historyOffset := sh.historyOffset + 1 }

/-! ## The keys -/

/-- A blank, a tab, a comma, or the NUL. -/
def isSeparator (b : Byte) : Bool := b = space || b = 0x09#8 || b = 0x2C#8 || b = 0

/-- The loop of `shellEnter` over the buffer, from index `i`: it ends the parameters with NULs and collects where
they start, at most `max`. -/
def parseLoop (max length : Nat) : Nat → Nat → Bool → List Nat → (Nat → Byte) → (Nat → Byte) × List Nat
  | 0, _, _, params, buffer => (buffer, params)
  | fuel + 1, i, fresh, params, buffer =>
    if length ≤ i then (buffer, params)
    else if isSeparator (buffer i) then parseLoop max length fuel (i + 1) true params (Function.update buffer i 0)
    else if fresh = true ∧ max ≤ params.length then (buffer, params)
    else
      let params := if fresh then params ++ [i] else params
      let i := if buffer i = 0x5C#8 ∧ buffer (i + 1) ≠ 0 then i + 1 else i
      parseLoop max length fuel (i + 1) false params buffer

/-- What `shellEnter` does with the parameters. -/
def runCommand (S : Setup) (params : List (List Byte)) : List Byte :=
  match params with
  | [] => []
  | name :: _ =>
    crlf ++
      if name = lit "help" then shellHelp S params
      else
        match S.commands.find? fun c => name = c.name with
        | some c => c.function params
        | none => textCmdNone

/-- `shellEnter`. -/
def shellEnter (S : Setup) (stale : Bool) (sh : Shell) : Shell × List Byte :=
  if sh.length = 0 then (sh, S.command)
  else
    let sh := { sh with buffer := Function.update sh.buffer sh.length 0, length := sh.length + 1 }
    let sh := shellHistoryAdd S stale sh
    let parsed := parseLoop S.parameterMaxNumber sh.length sh.length 0 true [] sh.buffer
    let params := parsed.2.map fun i => cstring parsed.1 i (S.commandMaxLength - i)
    ({ sh with buffer := parsed.1, length := 0, cursor := 0 }, runCommand S params ++ S.command)

/-- `shellBackspace`. -/
def shellBackspace (sh : Shell) : Shell × List Byte :=
  if sh.length = 0 then (sh, [])
  else if sh.cursor = sh.length then
    ({ sh with
        buffer := Function.update sh.buffer (sh.length - 1) 0
        length := sh.length - 1
        cursor := sh.cursor - 1 }, shellDelete 1)
  else if 0 < sh.cursor then
    let buffer := moveDown sh.buffer (sh.cursor - 1) 1 (sh.length - sh.cursor)
    let length := sh.length - 1
    let cursor := sh.cursor - 1
    let buffer := Function.update buffer length 0
    ({ sh with buffer := buffer, length := length, cursor := cursor },
      [backspace] ++ slice buffer cursor (length - cursor) ++ [space] ++
        List.replicate (length - cursor + 1) backspace)
  else (sh, [])

/-- The commands that the line is a prefix of: how many, the last of them, the common prefix as far as it is
known, and what is written on the way. -/
structure Matches where
  matchNum : Nat
  last : Option Command
  maxMatch : Nat
  out : List Byte

/-- The loop of `shellTab` over the commands. -/
def tabLoop (line : List Byte) : List Command → Matches → Matches
  | [], m => m
  | c :: commands, m =>
    if shellStringCompare line c.name = line.length then
      match m.last with
      | none => tabLoop line commands { m with last := some c, matchNum := m.matchNum + 1 }
      | some last =>
        tabLoop line commands
          { matchNum := m.matchNum + 1
            last := some c
            maxMatch := min m.maxMatch (shellStringCompare last.name c.name)
            out := m.out ++ (if m.matchNum = 1 then crlf else []) ++ shellDisplayItem last }
    else tabLoop line commands m

/-- A second tab soon after the first puts `help` before the command. -/
def longHelp (S : Setup) (sh : Shell) : Shell × List Byte :=
  let buffer := moveUp sh.buffer 0 5 (sh.length + 1)
  let buffer := copyString buffer 0 (lit "help")
  let buffer := Function.update buffer 4 space
  ({ sh with buffer := buffer, length := sh.length + 5, cursor := sh.length + 5 },
    shellClearLine sh ++ cstring buffer 0 S.commandMaxLength)

/-- `shellTab`. With `quick` the tick counter runs and the last key was less than `SHELL_DOUBLE_CLICK_TIME` ago. -/
def shellTab (S : Setup) (quick : Bool) (sh : Shell) : Shell × List Byte :=
  if sh.length = 0 then (sh, shellHelp S [[]] ++ S.command)
  else
    let sh := { sh with buffer := Function.update sh.buffer sh.length 0 }
    let found := tabLoop (cstring sh.buffer 0 S.commandMaxLength) S.commands ⟨0, none, S.commandMaxLength, []⟩
    match found.last with
    | none => (sh, [])
    | some last =>
      let cleared := if found.matchNum = 1 then shellClearLine sh else []
      let listed := if 1 < found.matchNum then shellDisplayItem last ++ S.command else []
      let length := if 1 < found.matchNum then found.maxMatch else last.name.length
      let buffer := Function.update (copyString sh.buffer 0 last.name) length 0
      let sh := { sh with buffer := buffer, length := length, cursor := length }
      let out := found.out ++ cleared ++ listed ++ cstring buffer 0 S.commandMaxLength
      if found.matchNum = 1 ∧ sh.tabFlag = true ∧ quick = true then
        let helped := longHelp S sh
        (helped.1, out ++ helped.2)
      else (sh, out)

/-- `shellNormal`. -/
def shellNormal (S : Setup) (data : Byte) (sh : Shell) : Shell × List Byte :=
  if data = 0 then (sh, [])
  else if sh.length < S.commandMaxLength - 1 then
    if sh.length = sh.cursor then
      ({ sh with
          buffer := Function.update sh.buffer sh.length data
          length := sh.length + 1
          cursor := sh.cursor + 1 }, [data])
    else
      let buffer := moveUp sh.buffer sh.cursor 1 (sh.length - sh.cursor)
      let buffer := Function.update buffer sh.cursor data
      let cursor := sh.cursor + 1
      let length := sh.length + 1
      let buffer := Function.update buffer length 0
      ({ sh with buffer := buffer, length := length, cursor := cursor },
        slice buffer (cursor - 1) (length - (cursor - 1)) ++ List.replicate (length - cursor) backspace)
  else
    ({ sh with cursor := sh.length },
      textCmdTooLong ++ S.command ++ cstring sh.buffer 0 S.commandMaxLength)

/-- The arrow keys: the last byte of their sequence, in `shellAnsi`. -/
def shellArrow (S : Setup) (data : Byte) (sh : Shell) : Shell × List Byte :=
  if data = 0x41#8 then shellHistoryUp S sh
  else if data = 0x42#8 then shellHistoryDown S sh
  else if data = 0x43#8 then
    if sh.cursor < sh.length then ({ sh with cursor := sh.cursor + 1 }, [sh.buffer sh.cursor]) else (sh, [])
  else if data = 0x44#8 then
    if 0 < sh.cursor then ({ sh with cursor := sh.cursor - 1 }, [backspace]) else (sh, [])
  else (sh, [])

/-- `shellAnsi`. -/
def shellAnsi (S : Setup) (data : Byte) (sh : Shell) : Shell × List Byte :=
  match sh.inputMode with
  | .ansiCsi =>
    let done := shellArrow S data sh
    ({ done.1 with inputMode := .normal }, done.2)
  | .ansiEsc =>
    if data = 0x5B#8 then ({ sh with inputMode := .ansiCsi }, []) else ({ sh with inputMode := .normal }, [])
  | .normal => (sh, [])

/-- A byte from the terminal, with what else it depends on. -/
structure Input where
  data : Byte
  stale : Bool
  quick : Bool

/-- `shellDefaultKeyFunctionList`, and the bytes without a function. -/
def shellKey (S : Setup) (i : Input) (sh : Shell) : Shell × List Byte :=
  if i.data = 0x0A#8 ∨ i.data = 0x0D#8 then shellEnter S i.stale sh
  else if i.data = 0x09#8 then shellTab S i.quick sh
  else if i.data = 0x08#8 ∨ i.data = 0x7F#8 then shellBackspace sh
  else if i.data = 0x1B#8 then ({ sh with inputMode := .ansiEsc }, [])
  else if 0x01#8 ≤ i.data ∧ i.data ≤ 0x1A#8 then (sh, [])
  else shellNormal S i.data sh

/-- `shellHandler`. -/
def shellHandler (S : Setup) (i : Input) (sh : Shell) : Shell × List Byte :=
  let done := if sh.inputMode = .normal then shellKey S i sh else shellAnsi S i.data sh
  ({ done.1 with tabFlag := decide (i.data = 0x09#8) }, done.2)

/-- The shell after some input, and all that it has written. -/
def shellRun (S : Setup) : List Input → Shell × List Byte → Shell × List Byte
  | [], s => s
  | i :: is, s => shellRun S is ((shellHandler S i s.1).1, s.2 ++ (shellHandler S i s.1).2)

end WmIot.Cli
