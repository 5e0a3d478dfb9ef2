import PropertyTree.Monitor.Session

/-!
# The commands of the monitor

`Monitor::getByPath` and the commands `Monitor` registers, with `onCmdList`, which prints a subtree in
preorder and, if it is asked to, subscribes to, unsubscribes from or deletes its nodes on the way.
The output of a command is kept in its parts: the texts, the bytes of a value, the lines of a listing.
-/

namespace PropertyTree.Monitor

open Library Server Client

/-! ## Paths -/

/-- The character `'/'`. -/
def slash : UInt8 := 47

/-- `[A-Za-z0-9]`. -/
def isAlnum (b : UInt8) : Bool :=
  (65 ≤ b && b ≤ 90) || (97 ≤ b && b ≤ 122) || (48 ≤ b && b ≤ 57)

/-- The first match of `/([A-Za-z0-9]+)` in a string: what the group has matched, and what comes after
the match.  The characters before it are passed over. -/
def nextMatch : Name → Option (Name × Name)
  | [] => none
  | b :: path =>
    if b = slash ∧ path.takeWhile isAlnum ≠ [] then
      some (path.takeWhile isAlnum, path.dropWhile isAlnum)
    else nextMatch path

/-- What `std::sregex_iterator` goes through, up to `n` matches. -/
def matchesUpTo : ℕ → Name → List Name
  | 0, _ => []
  | n + 1, path =>
    match nextMatch path with
    | none => []
    | some (name, path) => name :: matchesUpTo n path

/-- What `std::sregex_iterator` goes through; a match takes more than one character. -/
def pathMatches (path : Name) : List Name :=
  matchesUpTo path.length path

/-- The loop of `Monitor::getByPath`. -/
def walk (current : Addr) : List Name → Command (Option Addr)
  | [] => return some current
  | name :: names => do
    match ← get current name false with
    | none => return none
    | some next => walk next names

/-- `Monitor::getByPath`. -/
def getByPath (path : Name) : Command (Option Addr) := do
  if path = [slash] then return some (← root)
  let current ← root
  walk current (pathMatches path)

/-! ## Arguments and output -/

/-- `bfc::ArgsMap`; `arg` is the lookup. -/
abbrev ArgsMap := Std.ExtTreeMap Name Name

/-- `"path"`. -/
def pathArg : Name := [112, 97, 116, 104]

/-- `"parent"`. -/
def parentArg : Name := [112, 97, 114, 101, 110, 116]

/-- `"name"`. -/
def nameArg : Name := [110, 97, 109, 101]

/-- `"value"`. -/
def valueArg : Name := [118, 97, 108, 117, 101]

/-- `"action"`. -/
def actionArg : Name := [97, 99, 116, 105, 111, 110]

/-- `"enabled"`. -/
def enabledArg : Name := [101, 110, 97, 98, 108, 101, 100]

/-- `"false"`. -/
def falseValue : Name := [102, 97, 108, 115, 101]

/-- `"delete"`. -/
def deleteAction : Name := [100, 101, 108, 101, 116, 101]

/-- `"subscribe"`. -/
def subscribeAction : Name := [115, 117, 98, 115, 99, 114, 105, 98, 101]

/-- `"unsubscribe"`. -/
def unsubscribeAction : Name := [117, 110, 115, 117, 98, 115, 99, 114, 105, 98, 101]

/-- A line that `onCmdList` prints for a node. -/
structure Line where
  indent : ℕ
  name : Name
  uuid : UInt64
  data : Buffer
  deriving DecidableEq

/-- What a command returns. -/
inductive Output where
  | text (message : String)
  | value (data : Buffer)
  | listing (lines : List Line)
  deriving DecidableEq

/-! ## The commands on one node -/

/-- `std::tolower` in the C locale. -/
def toLower (b : UInt8) : UInt8 :=
  if 65 ≤ b ∧ b ≤ 90 then b + 32 else b

/-- The value `hexStringToVector` gives to a character, which is a `signed char`. -/
def hexDigit (b : UInt8) : UInt8 :=
  let b := toLower b
  if 97 ≤ b ∧ b < 128 then b - 97 + 10 else b - 48

/-- `hexStringToVector`; a single last character is dropped. -/
def hexStringToVector : Name → Buffer
  | hi :: lo :: rest => (hexDigit hi <<< 4 ||| hexDigit lo) :: hexStringToVector rest
  | _ => []

/-- The commands that work on the node at a path start with the same two tests. -/
def onNode (path : Option Name) (unspecified : String) (command : Addr → Command Output) :
    Command Output := do
  match path with
  | none => return .text unspecified
  | some path =>
    match ← getByPath path with
    | none => return .text "property not found!"
    | some prop => command prop

/-- `Monitor::onCmdCreate`; the name is looked up before the path is resolved. -/
def onCmdCreate (args : ArgsMap) : Command Output :=
  match args[parentArg]?, args[nameArg]? with
  | some _, none => return .text "name not specified!"
  | parent, name => onNode parent "parent not specified!" fun prop => do
    match ← create prop (name.getD []) with
    | some _ => return .text "done!"
    | none => return .text "failed!"

/-- `Monitor::onCmdSet`; the value is looked up before the path is resolved. -/
def onCmdSet (args : ArgsMap) : Command Output :=
  match args[pathArg]?, args[valueArg]? with
  | some _, none => return .text "value not specified!"
  | path, value => onNode path "path not specified!" fun prop => do
    set prop (hexStringToVector (value.getD []))
    return .text ""

/-- `Monitor::onCmdGet`. -/
def onCmdGet (args : ArgsMap) : Command Output :=
  onNode args[pathArg]? "path not specified!" fun prop => do
    fetch prop
    return .value (← raw prop)

/-- `Monitor::onCmdSubscribe`. -/
def onCmdSubscribe (args : ArgsMap) : Command Output :=
  onNode args[pathArg]? "path not specified!" fun prop => do
    discard (subscribe prop)
    setUpdateHandler prop
    return .text "subscribed!"

/-- `Monitor::onCmdUnsubscribe`. -/
def onCmdUnsubscribe (args : ArgsMap) : Command Output :=
  onNode args[pathArg]? "path not specified!" fun prop => do
    discard (unsubscribe prop)
    return .text "unsubscribed!"

/-- `Monitor::onCmdDelete`. -/
def onCmdDelete (args : ArgsMap) : Command Output :=
  onNode args[pathArg]? "path not specified!" fun prop => do
    return .text (if ← destroy prop then "deleted!" else "failed!")

/-- `Monitor::onCmdAutoWatch`; without the argument autowatch is switched on. -/
def onCmdAutoWatch (args : ArgsMap) : Command Output := do
  if args[enabledArg]? = some falseValue then
    modify fun σ => { σ with mAutowatch := false }
    return .text "autowatch disabled!"
  modify fun σ => { σ with mAutowatch := true }
  return .text "autowatch enabled!"

/-! ## `onCmdList` -/

/-- The values of `enum {NONE, DEL, SUB, UNSUB} action`; the variable is not initialised, so that it
can hold any bits. -/
def DEL : UInt32 := 1

@[inherit_doc DEL] def SUB : UInt32 := 2

@[inherit_doc DEL] def UNSUB : UInt32 := 3

/-- `TraversalContext`. -/
structure TraversalContext where
  name : Name
  children : List (Name × Addr)
  index : ℕ

/-- What `onCmdList` does with a node when it comes to it for the first time. -/
def visit (action : UInt32) (levels : ℕ) (name : Name) (prop : Addr) : Command Line := do
  fetch prop
  if action = SUB then
    discard (subscribe prop)
    setUpdateHandler prop
  else if action = UNSUB then
    discard (unsubscribe prop)
  let data ← raw prop
  return ⟨levels * 2, name, (← object prop).uuid, data⟩

/-- The `while (true)` loop of `onCmdList`; the head of the list of levels is `levels.back()`. -/
def listLoop (action : UInt32) :
    ℕ → List TraversalContext → List Line → Command (List Line)
  | 0, _, _ => throw .outOfFuel
  | _ + 1, [], _ => throw .fault
  | fuel + 1, level :: levels, ss =>
    match level.children[level.index]? with
    | some (name, child) => do
      let line ← visit action (levels.length + 1) name child
      let levels := { level with index := level.index + 1 } :: levels
      if (← childrenSize child) ≠ 0 then
        listLoop action fuel (⟨name, ← children child, 0⟩ :: levels) (ss ++ [line])
      else
        if action = DEL then discard (destroy child)
        listLoop action fuel levels (ss ++ [line])
    | none =>
      match levels with
      | [] => return ss
      | parent :: _ =>
        match parent.children[parent.index - 1]? with
        | none => throw .fault
        | some (_, child) => do
          if (← childrenSize child) = 0 ∧ action = DEL then discard (destroy child)
          listLoop action fuel levels ss

/-- The node `onCmdList` starts from. -/
def startNode (args : ArgsMap) : Command Addr := do
  let root ← root
  match args[pathArg]? with
  | none => return root
  | some path => deref (← getByPath path)

/-- What `onCmdList` assigns to `action`, whose contents are `initial` before; without a known action
it assigns nothing. -/
def assignAction (args : ArgsMap) (initial : UInt32) : UInt32 :=
  if args[actionArg]? = some deleteAction then DEL
  else if args[actionArg]? = some subscribeAction then SUB
  else if args[actionArg]? = some unsubscribeAction then UNSUB
  else initial

/-- `Monitor::onCmdList`, with `fuel` for its loop and `initial` in the variable `action`. -/
def onCmdList (fuel : ℕ) (initial : UInt32) (args : ArgsMap) : Command Output := do
  let root ← startNode args
  loadChildren root true
  let level := ⟨[], ← children root, 0⟩
  return .listing (← listLoop (assignAction args initial) fuel [level] [])

end PropertyTree.Monitor
