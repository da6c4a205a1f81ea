import WmIot.Lib.Transition

/-!
# The device table

Tasks look devices up by name, free them and run the automatic initialisation; a driver's `init` may
look devices up itself. A critical section of the global list is one step, and so is a callback's
start and its end. A device is created with its node, so a node stands for both pointers.
-/

namespace WmIot.Dt
open Transition
set_option autoImplicit false

variable {ν : Type} [DecidableEq ν]

/-- `struct wm_dt_table_entry` with what `hw_addr` and `ops_addr` say about the initialisation. -/
structure TableEntry (ν : Type) where
  devName : ν
  initLevel : Bool
  initPriority : Nat
  /-- whether `ops` and `ops->init` are there -/
  hasInit : Bool
deriving DecidableEq, Repr

/-- `struct wm_dt_device_t`, its address and the entry it was made from. -/
structure Device (ν : Type) where
  addr : Nat
  entry : TableEntry ν
deriving DecidableEq, Repr

def Device.name (d : Device ν) : ν := d.entry.devName

/-- Where a call of `wm_dt_auto_init_device` is. -/
inductive Phase (ν : Type) where
  | idle
  /-- before `dt_get_device` for entry `i` -/
  | collect (i : Nat)
  /-- after it -/
  | found (i : Nat) (dev : Option (Device ν))
  /-- before `dl_list_del` of a device that is not initialised -/
  | take (i : Nat) (dev : Device ν)
  /-- before the allocation of the array -/
  | array
  /-- at the head of the loop over the array -/
  | sorted
  /-- in the driver's `init` -/
  | initing (dev : Device ν)
  /-- before `dl_list_add` to the global list -/
  | insert (dev : Device ν)

/-- `devList` holds the devices on the private list whose turn has not come. -/
structure AutoInit (ν : Type) where
  phase : Phase ν
  devList : List (Device ν)

structure World (ν : Type) where
  nextAddr : Nat
  /-- `g_dt_dev_list` -/
  devList : List (Device ν)
  /-- `state == WM_DEV_ST_INITED` -/
  inited : Device ν → Bool
  /-- calls of `wm_dt_get_device_by_name` that have not found their device in the list -/
  gets : Nat → Option (TableEntry ν)
  autos : Nat → AutoInit ν
  /-- how often the device's `init` has been called -/
  inits : Device ν → Nat
  /-- what has been returned for a name since it was last freed -/
  obtained : List (Device ν)

def Init (s : World ν) : Prop :=
  s.devList = [] ∧ (∀ j, s.gets j = none) ∧ (∀ k, s.autos k = ⟨.idle, []⟩) ∧
    (∀ d, s.inits d = 0) ∧ s.obtained = []

inductive Event (ν : Type) where
  | get (j : Nat) (name : ν)
  | add (j : Nat) (mem : Bool)
  | freeByName (name : ν)
  | free (dev : Device ν)
  | freeAll
  | autoInit (k : Nat)
  /-- `mem` is whether memory can be had, `ok` how `init` ends, `next` the device that `qsort` put
  next -/
  | auto (k : Nat) (mem ok : Bool) (next : Device ν)

def lookup (l : List (Device ν)) (name : ν) : Option (Device ν) := l.find? fun d => d.name = name

/-- Steps 1 to 3 of `wm_dt_get_device_by_name` -/
def getDevice (table : List (TableEntry ν)) (s : World ν) (j : Nat) (name : ν) : World ν :=
  match lookup s.devList name with
  | some d => { s with obtained := d :: s.obtained }
  | none => { s with gets := Function.update s.gets j (table.find? fun e => e.devName = name) }

/-- Step 4, `dt_add_device` with `add2list` -/
def addDevice (s : World ν) (j : Nat) (e : TableEntry ν) (mem : Bool) : World ν :=
  let s' := { s with gets := Function.update s.gets j none }
  if mem then
    { s' with
      nextAddr := s.nextAddr + 1
      devList := ⟨s.nextAddr, e⟩ :: s.devList
      obtained := ⟨s.nextAddr, e⟩ :: s.obtained }
  else s'

/-- The device is taken off the list and freed. -/
def freeDevice (s : World ν) (d : Device ν) : World ν :=
  { s with
    devList := s.devList.erase d
    obtained := s.obtained.filter fun e => e.name ≠ d.name }

def World.setAuto (s : World ν) (k : Nat) (a : AutoInit ν) : World ν :=
  { s with autos := Function.update s.autos k a }

/-- The entry is collected as a device of its own, or skipped. -/
def collectEntry (s : World ν) (k : Nat) (i : Nat) (e : TableEntry ν) (dev : Option (Device ν))
    (mem : Bool) : World ν :=
  let a := s.autos k
  match dev with
  | some d =>
    if s.inited d ∨ ¬ e.initLevel then s.setAuto k { a with phase := .collect (i + 1) }
    else s.setAuto k { a with phase := .take i d }
  | none =>
    if e.initLevel ∧ mem then
      { s.setAuto k ⟨.collect (i + 1), ⟨s.nextAddr, e⟩ :: a.devList⟩ with
        nextAddr := s.nextAddr + 1 }
    else s.setAuto k { a with phase := .collect (i + 1) }

/-- No device on the list has a higher priority. -/
def highest (l : List (Device ν)) (d : Device ν) : Bool :=
  d ∈ l ∧ ∀ e ∈ l, e.entry.initPriority ≤ d.entry.initPriority

/-- A step of `wm_dt_auto_init_device` -/
def autoStep (table : List (TableEntry ν)) (s : World ν) (k : Nat) (mem ok : Bool)
    (next : Device ν) : Option (World ν) :=
  let a := s.autos k
  match a.phase with
  | .idle => none
  | .collect i =>
    match table[i]? with
    | some e => some (s.setAuto k { a with phase := .found i (lookup s.devList e.devName) })
    | none => some (s.setAuto k { a with phase := if a.devList = [] then .idle else .array })
  | .found i dev =>
    match table[i]? with
    | some e => some (collectEntry s k i e dev mem)
    | none => none
  | .take i d =>
    some { s.setAuto k ⟨.collect (i + 1), d :: a.devList⟩ with devList := s.devList.erase d }
  | .array =>
    if mem then some (s.setAuto k { a with phase := .sorted })
    -- the nodes on the private list are freed
    else some (s.setAuto k ⟨.idle, []⟩)
  | .sorted =>
    if a.devList = [] then some (s.setAuto k { a with phase := .idle })
    else if highest a.devList next then
      let rest := a.devList.erase next
      if next.entry.initLevel ∧ next.entry.hasInit then
        some { s.setAuto k ⟨.initing next, rest⟩ with
          inits := Function.update s.inits next (s.inits next + 1) }
      else some (s.setAuto k ⟨.insert next, rest⟩)
    else none
  | .initing d =>
    some { s.setAuto k { a with phase := .insert d } with
      inited := Function.update s.inited d (s.inited d || ok) }
  | .insert d =>
    some { s.setAuto k { a with phase := .sorted } with devList := d :: s.devList }

def step (table : List (TableEntry ν)) (s : World ν) : Event ν → Option (World ν)
  | .get j name => if s.gets j = none then some (getDevice table s j name) else none
  | .add j mem => (s.gets j).map fun e => addDevice s j e mem
  | .freeByName name =>
    match lookup s.devList name with
    | some d => some (freeDevice s d)
    | none => some s
  | .free d => if d ∈ s.devList then some (freeDevice s d) else some s
  | .freeAll => some (s.devList.foldl freeDevice s)
  | .autoInit k =>
    match s.autos k with
    | ⟨.idle, []⟩ => some (s.setAuto k ⟨.collect 0, []⟩)
    | _ => none
  | .auto k mem ok next => autoStep table s k mem ok next

end WmIot.Dt
