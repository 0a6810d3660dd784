/-
The interpreter of module lists and policies: modcall.cpp.

# The tree and the machine

A `modcallable` is a tree here, and a pointer to one the place in the list
of its parent's children (`Cursor`), so that `next`, `parent` and the
comparison of pointers mean what they mean in the source. The parallel
arrays of the stack are one list of frames, the top apart; `pointer` is
the number of frames below it. `modcall` is the machine, one round of its
loop a step (`modStep`).

# What is left out

What a module, an expansion or an update does to the request: these are
`ModExternals`, and `rest` of the request is theirs. A reference to a
virtual server is one of them, `indexedModcall`: the source calls `modcall`
again there, and the model takes that call for one that returns. A module
that returns no `RLM_MODULE_*`. A component outside the array, which the type
excludes. The debug output. How the tree is compiled, but for its actions.
-/
import WinRadius.Model.Types

namespace WinRadius

open Lib

-- ======== trees

/-- `RLM_COMPONENT_*`. -/
inductive RlmComponent where
  | auth | autz | preacct | acct | sess | preProxy | postProxy | postAuth
  | recvCoa | sendCoa
deriving Repr, DecidableEq

/-- The types of a `modgroup` that has children of its own. -/
inductive GroupType where
  | modGroup | modLoadBalance | modRedundantLoadBalance | modIf | modElse
  | modElsif | modSwitch | modCase | modPolicy
deriving Repr, DecidableEq

/-- `MOD_ACTION_RETURN`. -/
def modActionReturn : Int := -1

/-- `MOD_ACTION_REJECT`. -/
def modActionReject : Int := -2

/-- What every `modcallable` has. -/
structure ModHead where
  name : Option (List UInt8)
  method : RlmComponent
  actions : RlmModule → Int

/-- `module_instance_t`. -/
structure ModuleInstance where
  name : List UInt8
  dead : Bool := false

/-- `modcallable`. The name of a server is a pointer: it is compared as
one. -/
inductive Modcallable where
  | single (mc : ModHead) (modinst : ModuleInstance)
  | group (mc : ModHead) (type : GroupType) (children : List Modcallable)
  | update (mc : ModHead) (vps : List ValuePair)
  | reference (mc : ModHead) (refName : Nat)
  | xlat (mc : ModHead) (exec : Bool) (xlatName : List UInt8)

def Modcallable.mc : Modcallable → ModHead
  | single mc _ => mc
  | group mc _ _ => mc
  | update mc _ => mc
  | reference mc _ => mc
  | xlat mc _ _ => mc

/-- `GROUPTYPE_*`. -/
inductive ActionGroup where
  | simple | redundant | append
deriving Repr, DecidableEq

/-- A row of `defaultactions`. -/
def actionRow (reject fail ok handled invalid userlock notfound noop
    updated : Int) : RlmModule → Int
  | .reject => reject
  | .fail => fail
  | .ok => ok
  | .handled => handled
  | .invalid => invalid
  | .userlock => userlock
  | .notfound => notfound
  | .noop => noop
  | .updated => updated

/-- `defaultactions`; the rows that are alike are one. -/
def defaultActions (component : RlmComponent) (grouptype : ActionGroup) :
    RlmModule → Int :=
  let stop := modActionReturn
  match grouptype, component with
  | .simple, .auth => actionRow stop 1 stop stop 1 stop stop 1 1
  | .simple, .sess => actionRow stop 1 stop stop stop stop stop stop stop
  | .simple, .preacct | .simple, .acct =>
      actionRow stop stop 2 stop stop stop stop 1 3
  | .simple, _ => actionRow stop stop 3 stop stop stop 1 2 4
  | .redundant, .acct => actionRow 1 1 stop stop 1 1 1 2 4
  | .redundant, _ => actionRow stop 1 stop stop stop stop stop stop stop
  | .append, .sess => actionRow stop 1 stop stop stop stop stop stop stop
  | .append, _ => actionRow stop 1 stop stop stop stop 2 stop stop

-- ======== requests

/-- What the interpreter reads and writes of a `REQUEST`.
`stopProcessing` is the `master_state` of the request or its parent. -/
structure ModRequest (σ : Type) where
  stopProcessing : Bool := false
  module : List UInt8 := []
  server : Nat := 0
  simulMax : Int := 0
  rest : σ

/-- What the interpreter calls; each of these returns. -/
structure ModExternals (σ : Type) where
  methods : ModuleInstance → RlmComponent → ModRequest σ →
    RlmModule × ModRequest σ
  /-- `none` is a condition that cannot be evaluated. -/
  evaluateCondition : ModRequest σ → RlmModule → Option (List UInt8) →
    Option Bool × ModRequest σ
  updateAttrlist : List ValuePair → Option (List UInt8) → ModRequest σ →
    RlmModule × ModRequest σ
  /-- The nested `modcall` of a reference, on the tree of its server. -/
  indexedModcall : RlmComponent → ModRequest σ → RlmModule × ModRequest σ
  /-- `radius_get_vp` with `vp_prints_value`. -/
  getVpValue : List UInt8 → ModRequest σ → Option (List UInt8)
  radiusXlat : List UInt8 → ModRequest σ → List UInt8 × ModRequest σ
  execProgram : List UInt8 → ModRequest σ → ModRequest σ
  frRand : ModRequest σ → UInt32 × ModRequest σ

variable {σ : Type} (ext : ModExternals σ)

/-- The number of a `RLM_MODULE_*`. -/
def RlmModule.code : RlmModule → Int
  | reject => 0
  | fail => 1
  | ok => 2
  | handled => 3
  | invalid => 4
  | userlock => 5
  | notfound => 6
  | noop => 7
  | updated => 8

/-- `default_component_results`. -/
def defaultComponentResults : RlmComponent → RlmModule
  | .auth => .reject
  | .autz => .notfound
  | .preacct => .noop
  | .acct => .noop
  | .sess => .fail
  | .preProxy => .noop
  | .postProxy => .noop
  | .postAuth => .noop
  | .recvCoa => .noop
  | .sendCoa => .noop

/-- `call_modsingle`. -/
def callModsingle (component : RlmComponent) (sp : ModuleInstance)
    (request : ModRequest σ) : RlmModule × ModRequest σ :=
  if sp.dead then (.fail, request)
  else
    let (myresult, request) :=
      ext.methods sp component { request with module := sp.name }
    (myresult, { request with module := [] })

/-- The local variables of `modcall`. -/
structure ModControl (σ : Type) where
  request : ModRequest σ
  myresult : RlmModule
  wasIf : Bool
  ifTaken : Bool

/-- `handle_result`, up to `unroll`. -/
def handleResult (component : RlmComponent) (ctl : ModControl σ) :
    ModControl σ :=
  if component ≠ .sess then
    { ctl with request := { ctl.request with simulMax := ctl.myresult.code } }
  else ctl

/-- A child that is no group, up to `unroll`. -/
def callChild (component : RlmComponent) (child : Modcallable)
    (ctl : ModControl σ) : ModControl σ :=
  match child with
  | .group _ _ _ => ctl
  | .update mc vps =>
      let (rcode, request) := ext.updateAttrlist vps mc.name ctl.request
      handleResult component { ctl with
        request := request
        myresult := if rcode ≠ .updated then rcode else ctl.myresult }
  | .reference _ refName =>
      let server := ctl.request.server
      if server = refName then
        handleResult component { ctl with myresult := .noop }
      else
        let (myresult, request) := ext.indexedModcall component
          { ctl.request with server := refName }
        handleResult component { ctl with
          request := { request with server := server }
          myresult := myresult }
  | .xlat _ exec xlatName =>
      let request := if exec then ext.execProgram xlatName ctl.request
        else (ext.radiusXlat xlatName ctl.request).2
      handleResult component { ctl with request := request }
  | .single mc modinst =>
      let (myresult, request) :=
        callModsingle ext mc.method modinst ctl.request
      handleResult component { ctl with
        request := request, myresult := myresult }

/-- An `else` or `elsif` that is skipped. -/
def skips (type : GroupType) (ctl : ModControl σ) : Bool :=
  (type = .modElse ∨ type = .modElsif) ∧ (!ctl.wasIf ∨ ctl.ifTaken)

/-- The condition of an `if` or `elsif`. One that cannot be evaluated is
false; any other group is entered. -/
def conditionHolds (mc : ModHead) (type : GroupType) (ctl : ModControl σ) :
    Bool × ModControl σ :=
  if type = .modIf ∨ type = .modElsif then
    let (condition, request) :=
      ext.evaluateCondition ctl.request ctl.myresult mc.name
    (condition.getD false, { ctl with request := request })
  else (true, ctl)

-- ======== choosing

/-- The loop that picks a child; `i` is the place of the next one. -/
def pickLoop : List Modcallable → Nat → Nat → Nat → ModRequest σ →
    Nat × ModRequest σ
  | [], _, _, q, request => (q, request)
  | _ :: rest, i, count, q, request =>
      let (rand, request) := ext.frRand request
      let count := count + 1
      let q := if UInt32.ofNat count * (rand &&& 0xffff) < 0x10000 then i
        else q
      pickLoop rest (i + 1) count q request

/-- The child of a load-balance group that is picked. -/
def pickChild (children : List Modcallable) (request : ModRequest σ) :
    Option Nat × ModRequest σ :=
  match children with
  | [] => (none, request)
  | _ :: rest =>
      let (q, request) := pickLoop ext rest 1 1 0 request
      (some q, request)

/-- The loop over the cases of a `switch`. -/
def switchLoop (buffer : List UInt8) : List Modcallable → Nat →
    Option Nat → Option Nat
  | [], _, nullCase => nullCase
  | p :: rest, i, nullCase =>
      match p.mc.name with
      | none => switchLoop buffer rest (i + 1) (nullCase <|> some i)
      | some name =>
          if cString buffer = cString name then some i
          else switchLoop buffer rest (i + 1) nullCase

/-- What a `switch` is over. -/
def switchValue (name : List UInt8) (request : ModRequest σ) :
    List UInt8 × ModRequest σ :=
  if 0x25 ∉ cString name then
    ((ext.getVpValue name request).getD [], request)
  else ext.radiusXlat name request

/-- `stack.children` and `stack.start` of a group that is entered, as a
place in its children; `none` in front is a `switch` without a name. -/
def chooseChild (mc : ModHead) (type : GroupType)
    (children : List Modcallable) (request : ModRequest σ) :
    Option (Option Nat × ModRequest σ) :=
  match type with
  | .modLoadBalance | .modRedundantLoadBalance =>
      some (pickChild ext children request)
  | .modSwitch =>
      match mc.name with
      | none => none
      | some name =>
          let (buffer, request) := switchValue ext name request
          some (switchLoop buffer children 0 none, request)
  | _ => some (if children = [] then none else some 0, request)

-- ======== the machine

/-- A pointer to a child, with the type of its parent. -/
structure Cursor where
  parent : Option GroupType
  siblings : List Modcallable
  index : Nat
  inside : index < siblings.length

namespace Cursor

/-- The pointer to a place in a list, `NULL` behind the end. -/
def at? (parent : Option GroupType) (siblings : List Modcallable)
    (i : Nat) : Option Cursor :=
  if h : i < siblings.length then some ⟨parent, siblings, i, h⟩ else none

variable (child : Cursor)

/-- `*child`. -/
def node : Modcallable := child.siblings.get ⟨child.index, child.inside⟩

/-- `child->next`. -/
def next : Option Cursor :=
  at? child.parent child.siblings (child.index + 1)

end Cursor

/-- A level of `modcall_stack`. -/
structure ModFrame where
  priority : Int
  result : RlmModule
  children : Option Cursor
  start : Option Cursor

/-- How the interpreter ends: `modcall` returns, or the process does. -/
inductive ModEnd (σ : Type) where
  | returned (myresult : RlmModule) (request : ModRequest σ)
  | exited (request : ModRequest σ)

/-- What a round of the loop comes to. -/
inductive ModNext (σ : Type) where
  | loop (ctl : ModControl σ) (top : ModFrame) (below : List ModFrame)
  | ended (result : ModEnd σ)

/-- `MODCALL_STACK_MAX`. -/
def modcallStackMax : Nat := 32

/-- `parent->type == MOD_IF` or `MOD_ELSIF`. -/
def isIf (parent : Option GroupType) : Bool :=
  parent = some .modIf ∨ parent = some .modElsif

/-- "Go to the next child, whatever that is." -/
def nextChild (type : GroupType) (child : Cursor) (start : Option Cursor) :
    Option Cursor :=
  match type with
  | .modSwitch | .modLoadBalance => none
  | .modRedundantLoadBalance =>
      let next := child.next <|> Cursor.at? child.parent child.siblings 0
      if next.map Cursor.index = start.map Cursor.index then none else next
  | _ => child.next

/-- `next_section`; `doReturn` is what follows it for the last child. -/
def nextSection (doReturn : ModControl σ → ModFrame → Option GroupType →
    ModNext σ) (ctl : ModControl σ) (top : ModFrame)
    (below : List ModFrame) (child : Cursor) : ModNext σ :=
  match child.parent with
  | none =>
      if below = [] then .ended (.returned top.result ctl.request)
      else .ended (.exited ctl.request)
  | some type =>
      match nextChild type child top.start with
      | some next => .loop ctl { top with children := some next } below
      | none => doReturn ctl { top with children := none } child.parent

/-- `unroll`. -/
def unroll (doReturn : ModControl σ → ModFrame → Option GroupType →
    ModNext σ) (ctl : ModControl σ) (top : ModFrame)
    (below : List ModFrame) (child : Cursor) : ModNext σ :=
  let action := child.node.mc.actions ctl.myresult
  if action = modActionReturn then
    doReturn ctl { top with result := ctl.myresult, children := none }
      child.parent
  else if action = modActionReject then
    doReturn ctl { top with result := .reject, children := none }
      child.parent
  else
    nextSection doReturn ctl
      (if top.priority ≤ action then
        { top with result := ctl.myresult, priority := action }
      else top) below child

/-- `do_return`, with the frames below the one that is left. -/
def doReturn : List ModFrame → ModControl σ → ModFrame →
    Option GroupType → ModNext σ
  | [], ctl, _, _ => .ended (.exited ctl.request)
  | [_], ctl, top, _ => .ended (.returned top.result ctl.request)
  | frame :: b :: below, ctl, top, parent =>
      match frame.children with
      | none => .ended (.exited ctl.request)
      | some child =>
          unroll (doReturn (b :: below)) { ctl with
            myresult := top.result
            wasIf := isIf parent
            ifTaken := isIf parent } frame (b :: below) child

/-- A group with children of its own is entered. -/
def enterGroup (component : RlmComponent) (mc : ModHead) (type : GroupType)
    (children : List Modcallable) (ctl : ModControl σ) (top : ModFrame)
    (below : List ModFrame) (child : Cursor) : ModNext σ :=
  if modcallStackMax ≤ below.length + 1 then .ended (.exited ctl.request)
  else
    match chooseChild ext mc type children ctl.request with
    | none => .ended (.exited ctl.request)
    | some (chosen, request) =>
        let ctl := { ctl with request := request }
        let first := chosen.bind (Cursor.at? (some type) children)
        let frame : ModFrame :=
          { priority := 0, result := defaultComponentResults component
            children := first, start := first }
        match first with
        | none => doReturn (top :: below) ctl frame child.parent
        | some _ => .loop ctl frame (top :: below)

/-- A round of the loop. -/
def modStep (component : RlmComponent) (ctl : ModControl σ)
    (top : ModFrame) (below : List ModFrame) : ModNext σ :=
  if ctl.request.stopProcessing then .ended (.returned .fail ctl.request)
  else
    match top.children with
    | none => .ended (.returned top.result ctl.request)
    | some child =>
        match child.node with
        | .group mc type children =>
            let ctl := if type = .modElse ∨ type = .modElsif then
              { ctl with myresult := top.result } else ctl
            if skips type ctl then
              unroll (doReturn below) ctl top below child
            else
              match conditionHolds ext mc type ctl with
              | (false, ctl) =>
                  nextSection (doReturn below)
                    { ctl with wasIf := true, ifTaken := false }
                    { top with result := ctl.myresult } below child
              | (true, ctl) =>
                  enterGroup ext component mc type children ctl top below
                    child
        | leaf =>
            unroll (doReturn below) (callChild ext component leaf ctl) top
              below child

/-- The loop of `modcall`, `fuel` rounds of it. -/
def modLoop (component : RlmComponent) : Nat → ModNext σ →
    Option (ModEnd σ)
  | _, .ended result => some result
  | 0, .loop _ _ _ => none
  | fuel + 1, .loop ctl top below =>
      modLoop component fuel (modStep ext component ctl top below)

/-- `modcall`. -/
def modcall (component : RlmComponent) (c : Option Modcallable)
    (request : ModRequest σ) (fuel : Nat) : Option (ModEnd σ) :=
  let result := defaultComponentResults component
  modLoop ext component fuel (.loop
    { request := request, myresult := result
      wasIf := false, ifTaken := false }
    { priority := 0, result := result
      children := c.bind fun c => Cursor.at? none [c] 0, start := none } [])

end WinRadius
