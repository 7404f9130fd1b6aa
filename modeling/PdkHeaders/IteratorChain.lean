import PdkHeaders.Library.Execution
import PdkHeaders.Library.Stores

set_option autoImplicit false

/-!
# Chains of iterators

Chain objects and their nodes, with the links between them as the code follows and overwrites
them. A pointer is an address or null.
-/
namespace PdkHeaders.IteratorChain
open PdkHeaders.Library.Execution PdkHeaders.Library.Stores

structure ChainItem (Iter : Type) where
  rangeBegin : Iter
  rangeEnd : Iter
  next : Option ℕ
  prev : Option ℕ
  deriving DecidableEq, Repr

structure Chain where
  mBegin : Option ℕ
  mEnd : Option ℕ
  deriving DecidableEq, Repr

structure World (Iter : Type) where
  chain : ℕ → Option Chain
  items : Store (ChainItem Iter)

def World.init {Iter : Type} : World Iter := ⟨fun _ => none, .empty⟩

/-- A pointer to a link: to the head of a chain, or to the link out of a node. -/
inductive Link where
  | mBegin (c : ℕ)
  | next (n : ℕ)
  deriving DecidableEq, Repr

theorem mBegin_ne_next (c n : ℕ) : Link.mBegin c ≠ .next n := by
  intro h
  cases h

section World
variable {Iter : Type} (w : World Iter)

def World.putChain (c : ℕ) (chain : Chain) : World Iter :=
  { w with chain := Function.update w.chain c (some chain) }

def World.dropChain (c : ℕ) : World Iter :=
  { w with chain := Function.update w.chain c none }

def World.modifyChain (c : ℕ) (f : Chain → Chain) : World Iter :=
  { w with chain := Function.update w.chain c ((w.chain c).map f) }

def World.modifyItem (n : ℕ) (f : ChainItem Iter → ChainItem Iter) : World Iter :=
  { w with items := w.items.modify n f }

def World.allocItem (item : ChainItem Iter) : World Iter :=
  { w with items := w.items.alloc item }

def World.freeItem (n : ℕ) : World Iter := { w with items := w.items.free n }

def World.linkValue : Link → Option (Option ℕ)
  | .mBegin c => (w.chain c).map (·.mBegin)
  | .next n => (w.items.cell n).map (·.next)

def World.setLink : Link → Option ℕ → World Iter
  | .mBegin c, p => w.modifyChain c fun chain => { chain with mBegin := p }
  | .next n, p => w.modifyItem n fun item => { item with next := p }

variable {w} {c d n : ℕ} {chain : Chain} {item : ChainItem Iter} {f : Chain → Chain}
  {g : ChainItem Iter → ChainItem Iter} {l l' : Link} {p : Option ℕ}

@[simp] theorem putChain_items : (w.putChain c chain).items = w.items := rfl
@[simp] theorem dropChain_items : (w.dropChain c).items = w.items := rfl
@[simp] theorem modifyChain_items : (w.modifyChain c f).items = w.items := rfl
@[simp] theorem modifyItem_chain : (w.modifyItem n g).chain = w.chain := rfl
@[simp] theorem modifyItem_items : (w.modifyItem n g).items = w.items.modify n g := rfl
@[simp] theorem allocItem_chain : (w.allocItem item).chain = w.chain := rfl
@[simp] theorem allocItem_items : (w.allocItem item).items = w.items.alloc item := rfl
@[simp] theorem freeItem_chain : (w.freeItem n).chain = w.chain := rfl
@[simp] theorem freeItem_items : (w.freeItem n).items = w.items.free n := rfl

@[simp] theorem putChain_self : (w.putChain c chain).chain c = some chain :=
  Function.update_self _ _ _
@[simp] theorem dropChain_self : (w.dropChain c).chain c = none := Function.update_self _ _ _
@[simp] theorem modifyChain_self : (w.modifyChain c f).chain c = (w.chain c).map f :=
  Function.update_self _ _ _

theorem putChain_of_ne (h : d ≠ c) : (w.putChain c chain).chain d = w.chain d :=
  Function.update_of_ne h _ _
theorem dropChain_of_ne (h : d ≠ c) : (w.dropChain c).chain d = w.chain d :=
  Function.update_of_ne h _ _
theorem modifyChain_of_ne (h : d ≠ c) : (w.modifyChain c f).chain d = w.chain d :=
  Function.update_of_ne h _ _

@[simp] theorem setLink_bound : (w.setLink l p).items.bound = w.items.bound := by cases l <;> rfl

theorem setLink_self (h : (w.linkValue l).isSome) : (w.setLink l p).linkValue l = some p := by
  cases l with
  | mBegin c =>
    obtain ⟨chain, hchain⟩ := Option.isSome_iff_exists.mp (Option.isSome_map ▸ h)
    simp [World.setLink, World.linkValue, hchain]
  | next n =>
    obtain ⟨item, hitem⟩ := Option.isSome_iff_exists.mp (Option.isSome_map ▸ h)
    simp [World.setLink, World.linkValue, hitem]

theorem setLink_of_ne (h : l' ≠ l) : (w.setLink l p).linkValue l' = w.linkValue l' := by
  cases l with
  | mBegin c =>
    cases l' with
    | mBegin d =>
      have hne : d ≠ c := fun heq => h (congrArg Link.mBegin heq)
      simp only [World.setLink, World.linkValue, modifyChain_of_ne hne]
    | next n => rfl
  | next n =>
    cases l' with
    | mBegin d => rfl
    | next m =>
      have hne : m ≠ n := fun heq => h (congrArg Link.next heq)
      simp only [World.setLink, World.linkValue, modifyItem_items, Store.modify_of_ne hne]

end World

section Memory
variable {Iter : Type}

/-- A null pointer has no address to access. -/
def deref : Option ℕ → Exec (World Iter) ℕ
  | some n => pure n
  | none => fault .badAccess

/-- Access to a node that is not there is undefined, and so is deleting it. -/
def readItem (n : ℕ) : Exec (World Iter) (ChainItem Iter) := do
  match (← get).items.cell n with
  | some item => pure item
  | none => fault .badAccess

def readChain (c : ℕ) : Exec (World Iter) Chain := do
  match (← get).chain c with
  | some chain => pure chain
  | none => fault .badAccess

def modifyItem (n : ℕ) (f : ChainItem Iter → ChainItem Iter) : Exec (World Iter) Unit := do
  let _ ← readItem n
  modify fun w => w.modifyItem n f

def modifyChain (c : ℕ) (f : Chain → Chain) : Exec (World Iter) Unit := do
  let _ ← readChain c
  modify fun w => w.modifyChain c f

def readLink : Link → Exec (World Iter) (Option ℕ)
  | .mBegin c => return (← readChain c).mBegin
  | .next n => return (← readItem n).next

def writeLink : Link → Option ℕ → Exec (World Iter) Unit
  | .mBegin c, p => modifyChain c fun chain => { chain with mBegin := p }
  | .next n, p => modifyItem n fun item => { item with next := p }

/-- `new iterator_chain_item<Iter>`, unless the allocation fails. -/
def newItem (item : ChainItem Iter) (fails : Bool) : Exec (World Iter) ℕ := do
  if fails then
    raise .badAlloc
  let w ← get
  set (w.allocItem item)
  return w.items.bound

def deleteItem (n : ℕ) : Exec (World Iter) Unit := do
  let _ ← readItem n
  modify fun w => w.freeItem n

section Run
variable {w : World Iter} {c n : ℕ} {chain : Chain} {item : ChainItem Iter} {l : Link}
  {p : Option ℕ}

@[simp] theorem deref_some : (deref (some n) : Exec (World Iter) ℕ) = pure n := rfl

theorem readItem_run (h : w.items.cell n = some item) : (readItem n).run w = .ok item w := by
  simp only [readItem, EStateM.run_bind, EStateM.run_get, h, EStateM.run_pure]

theorem readItem_dead (h : w.items.cell n = none) :
    (readItem n).run w = .error (.faults .badAccess) w := by
  simp only [readItem, EStateM.run_bind, EStateM.run_get, h, fault_run]

theorem readChain_run (h : w.chain c = some chain) : (readChain c).run w = .ok chain w := by
  simp only [readChain, EStateM.run_bind, EStateM.run_get, h, EStateM.run_pure]

theorem modifyItem_run (h : w.items.cell n = some item)
    (f : ChainItem Iter → ChainItem Iter) :
    (modifyItem n f).run w = .ok () (w.modifyItem n f) := by
  rw [modifyItem, bind_ok (readItem_run h)]
  rfl

theorem modifyChain_run (h : w.chain c = some chain) (f : Chain → Chain) :
    (modifyChain c f).run w = .ok () (w.modifyChain c f) := by
  rw [modifyChain, bind_ok (readChain_run h)]
  rfl

theorem readLink_run (h : w.linkValue l = some p) : (readLink l).run w = .ok p w := by
  cases l with
  | mBegin c =>
    obtain ⟨chain, hchain, rfl⟩ := Option.map_eq_some_iff.mp h
    rw [readLink, bind_ok (readChain_run hchain)]
    rfl
  | next n =>
    obtain ⟨item, hitem, rfl⟩ := Option.map_eq_some_iff.mp h
    rw [readLink, bind_ok (readItem_run hitem)]
    rfl

theorem writeLink_run (h : w.linkValue l = some p) (q : Option ℕ) :
    (writeLink l q).run w = .ok () (w.setLink l q) := by
  cases l with
  | mBegin c =>
    obtain ⟨chain, hchain, -⟩ := Option.map_eq_some_iff.mp h
    exact modifyChain_run hchain _
  | next n =>
    obtain ⟨item, hitem, -⟩ := Option.map_eq_some_iff.mp h
    exact modifyItem_run hitem _

theorem newItem_run (w : World Iter) (item : ChainItem Iter) :
    (newItem item false).run w = .ok w.items.bound (w.allocItem item) := rfl

theorem deleteItem_run (h : w.items.cell n = some item) :
    (deleteItem n).run w = .ok () (w.freeItem n) := by
  rw [deleteItem, bind_ok (readItem_run h)]
  rfl

end Run

end Memory

section Operations
variable {Iter : Type} (assertions : Bool)

def construct (c : ℕ) : Exec (World Iter) Unit := modify fun w => w.putChain c ⟨none, none⟩

/-- `push_back` from the allocation on. The new node is uninitialised until its fields are
assigned; no other code sees it so. -/
def pushThrough [Inhabited Iter] (op : Link) (c : ℕ) (rangeBegin rangeEnd : Iter) (fails : Bool) :
    Exec (World Iter) Unit := do
  let item ← newItem ⟨default, default, none, none⟩ fails
  writeLink op (some item)
  modifyItem (← deref (← readLink op)) fun item => { item with rangeBegin := rangeBegin }
  modifyItem (← deref (← readLink op)) fun item => { item with rangeEnd := rangeEnd }
  let mEnd := (← readChain c).mEnd
  modifyItem (← deref (← readLink op)) fun item => { item with prev := mEnd }
  modifyItem (← deref (← readLink op)) fun item => { item with next := none }
  let last ← readLink op
  modifyChain c fun chain => { chain with mEnd := last }

def pushBack [Inhabited Iter] (c : ℕ) (rangeBegin rangeEnd : Iter) (fails : Bool) :
    Exec (World Iter) Unit := do
  let chain ← readChain c
  match chain.mEnd with
  | some last =>
    assert assertions chain.mBegin.isSome
    pushThrough (.next last) c rangeBegin rangeEnd fails
  | none =>
    assert assertions chain.mBegin.isNone
    pushThrough (.mBegin c) c rangeBegin rangeEnd fails

/-- How the loop of `assignInner` ends, with the value of `op` at that point. -/
inductive LoopExit where
  | finished (op : Link)
  | threw (op : Link)
  deriving DecidableEq, Repr

/-- The loop of `assignInner`; `failsAt` is the round whose allocation fails, if any. -/
def assignLoop (failsAt : Option ℕ) : ℕ → ℕ → Link → Link → Exec (World Iter) LoopExit
  | 0, _, _, _ => fault .diverges
  | fuel + 1, round, op, ip => do
    if failsAt = some round then
      return .threw op
    let clone ← newItem (← readItem (← deref (← readLink ip))) false
    writeLink op (some clone)
    let ip := Link.next (← deref (← readLink ip))
    if (← readLink ip) = none then
      writeLink (.next (← deref (← readLink op))) none
      return .finished op
    assignLoop failsAt fuel (round + 1) (.next (← deref (← readLink op))) ip

def destroyInner : ℕ → Option ℕ → Exec (World Iter) Unit
  | _, none => pure ()
  | 0, some _ => fault .diverges
  | fuel + 1, some i => do
    let chainBegin := (← readItem i).next
    deleteItem i
    destroyInner fuel chainBegin

/-- No list is longer than the number of nodes ever allocated. -/
def fuel (w : World Iter) : ℕ := w.items.bound + 1

def assignInner (t v : ℕ) (failsAt : Option ℕ) : Exec (World Iter) Unit := do
  let source ← readChain v
  match source.mBegin with
  | some first =>
    assert assertions source.mEnd.isSome
    assert assertions (← readItem first).prev.isNone
    match ← assignLoop failsAt (fuel (← get)) 0 (.mBegin t) (.mBegin v) with
    | .finished op =>
      let last ← readLink op
      modifyChain t fun chain => { chain with mEnd := last }
    | .threw op =>
      destroyInner (fuel (← get)) (← readLink op)
      raise .badAlloc
  | none =>
    assert assertions source.mEnd.isNone
    modifyChain t fun _ => ⟨none, none⟩

/-- The constructor has no initialisers, so the fields start with what the storage held; a
constructor that throws leaves no object behind. -/
def copyConstruct (t copy : ℕ) (raw : Chain) (failsAt : Option ℕ) : Exec (World Iter) Unit := do
  modify fun w => w.putChain t raw
  catchAll (assignInner assertions t copy failsAt) fun e => do
    modify fun w => w.dropChain t
    raise e

def assign (t rhs : ℕ) (failsAt : Option ℕ) : Exec (World Iter) Unit := do
  let old ← readChain t
  catchAll (assignInner assertions t rhs failsAt) fun e => do
    modifyChain t fun _ => old
    raise e

def destroy (c : ℕ) : Exec (World Iter) Unit := do
  let chain ← readChain c
  destroyInner (fuel (← get)) chain.mBegin
  modify fun w => w.dropChain c

end Operations

end PdkHeaders.IteratorChain
