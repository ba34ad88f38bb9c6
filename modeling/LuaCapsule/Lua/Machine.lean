import LuaCapsule.Lua.Step
import LuaCapsule.Lua.Library.Catalog

/-! The machine: calls, results and errors as they pass between what is waiting, and the steps
of running code. Calls made by code are part of one run; a library function that calls a
function starts a run of its own, whose end is marked by a boundary. A run takes a bounded
number of steps, and runs within runs are bounded by the depth at which calls overflow. -/

namespace LuaCapsule.Lua.Machine

/-- Calls a function in a run of its own. The library function that does so, if any, is a
level of calls. -/
abbrev Nested := Option Native → Value → List Value → M (List Value)

/-- What a run has come to. -/
inductive Progress where
  | running
  /-- The call for which the run was started has these results. -/
  | finished (results : List Value)

/-! ### What is waiting -/

def setFrames (fs : List Frame) : M Unit := modify fun st => { st with frames := fs }

def pushFrame (f : Frame) : M Unit := modify fun st => { st with frames := f :: st.frames }

/-- Where the registers of the next call begin among those of the running coroutine. A call made
by code has them behind the function that is called. -/
def nextBottom (direct : Bool) : List Frame → Nat
  | [] => 0
  | .activation a :: _ =>
    match direct, a.want with
    | true, .registers base _ => a.bottom + base + 1
    | true, .hold base => a.bottom + base + 1
    | _, _ => a.bottom + a.registers.size + 1
  | .resumed .. :: _ => 0
  | _ :: rest => nextBottom false rest + 1

/-- How many calls are under way that were not made by code alone. -/
def nesting : List Frame → Nat
  | [] => 0
  | .activation a :: _ => a.nesting
  | .host _ :: rest => nesting rest
  | _ :: rest => nesting rest + 1

/-- The depth at which calls that are not made by code alone overflow. -/
def maxNesting : Nat := 200

/-- The depth at which handling an overflow is given up. -/
def maxHandling : Nat := 220

/-- How many registers one coroutine can have, and how many more while an error about that is
handled. -/
def maxRegisters : Nat := 1000000

def spareRegisters : Nat := 200

/-- Fails if one more call like these overflows. -/
def checkNesting (n : Nat) : M Unit := do
  if n == maxNesting then raiseText "C stack overflow"
  if n ≥ maxHandling then throw (.raised (.text "error in error handling") true)

/-! ### Results -/

/-- Gives results to what waits for them. -/
def deliver (vs : List Value) : List Frame → M Progress
  | [] => return .finished vs
  | .activation a :: rest => do
    modify fun st =>
      let (a, heap) := a.receive st.heap vs
      { st with heap, frames := .activation a :: rest }
    return .running
  | .host _ :: rest => deliver vs rest
  | .protected' _ :: rest => deliver (.bool true :: vs) rest
  | .boundary _ :: rest => do
    setFrames rest
    return .finished vs
  | .hostCall _ :: rest => do
    setFrames rest
    return .finished vs
  | .resumed t wrapped :: rest => do
    modifyHeap (·.setThread t .dead)
    deliver (if wrapped then vs else .bool true :: vs) rest

/-! ### Calls -/

/-- The function that a call of a value comes down to, with its arguments. The caller may say how
messages name the value, where its code does not. -/
def callee (calledAs : Option Origin) : Nat → Value → List Value → M (Value × List Value)
  | 0, _, _ => raiseText "'__call' chain too long"
  | fuel + 1, f, args => do
    if Heap.isFunction f then return (f, args)
    let st ← get
    match st.heap.metamethod f "__call" with
    | .nil =>
      let origin := calledAs.getD (calleeOrigin st.frames)
      raiseHere (Bytes.ofString "attempt to call a " ++ st.heap.typeName f ++ Bytes.ofString " value"
        ++ origin.describe)
    | m => callee calledAs fuel m (f :: args)

/-- Registers that hold some parameters, and nil otherwise. -/
def newRegisters (args : List Value) (parameters : Nat) (size : Nat) : Array Value :=
  let held := (fit args parameters).foldl Array.push (Array.emptyWithCapacity size)
  held ++ Array.replicate (size - parameters) Value.nil

/-- Makes sure that there is room for the registers of a call. -/
def checkRegisters (bottom size : Nat) : M Unit := do
  let isOverflowing := (← get).isOverflowing
  if bottom + size > (if isOverflowing then maxRegisters + spareRegisters else maxRegisters) then
    if isOverflowing then throw (.raised (.text "error in error handling") true)
    modify fun st => { st with isOverflowing := true }
    raiseText "stack overflow"

/-- Starts a function of the language. -/
def enter (id : Nat) (args : List Value) (isTail direct : Bool) : M Progress := do
  let st ← get
  match st.heap.closure? id with
  | none => deliver [] st.frames
  | some c =>
    let p := c.code.proto
    let bottom := nextBottom direct st.frames
    checkRegisters (bottom + args.length) p.registers.toNat
    let nesting := nesting st.frames + if direct then 0 else 1
    unless direct do checkNesting nesting
    let parameters := p.parameters.toNat
    let a : Activation :=
      { closure := id, code := c.code, upvalues := c.upvalues
        registers := newRegisters args parameters p.registers.toNat
        shared := []
        extra := if p.isVariadic then args.drop parameters else []
        pc := 0, held := [], heldAt := 0, joining := none, marked := [], want := .nothing
        isTail
        bottom := if p.isVariadic then bottom + args.length + 1 else bottom
        nesting }
    pushFrame (.activation a)
    return .running

/-- Lets a coroutine go on, or begin. The continuation begins the call of its body. -/
def resume (begin' : Value → List Value → M Progress) (t : Nat) (wrapped : Bool)
    (args : List Value) : M Progress := do
  let st ← get
  let refuse (message : String) : M Progress := do
    if wrapped then raiseText message
    else deliver [.bool false, .text message] st.frames
  if nesting st.frames ≥ maxNesting then refuse "C stack overflow"
  else
    match st.heap.thread t with
    | .fresh body =>
      modifyHeap (·.setThread t .running)
      pushFrame (.resumed t wrapped)
      begin' body args
    | .suspended frames _ =>
      modifyHeap (·.setThread t .running)
      let frames := frames ++ .resumed t wrapped :: st.frames
      setFrames frames
      deliver args frames
    | .running => refuse "cannot resume non-suspended coroutine"
    | .dead => refuse "cannot resume dead coroutine"
    | .failed .. => refuse "cannot resume dead coroutine"

/-- The frames of the running coroutine, the resumption of it, and the frames below. -/
def splitAtResumption : List Frame → Option (List Frame × Nat × Bool × List Frame)
  | [] => none
  | .resumed t wrapped :: rest => some ([], t, wrapped, rest)
  | f :: rest => (splitAtResumption rest).map fun (own, r) => (f :: own, r)

/-- Nothing is lost between the parts. -/
theorem eq_append_of_splitAtResumption {fs own below : List Frame} {t : Nat} {wrapped : Bool}
    (h : splitAtResumption fs = some (own, t, wrapped, below)) :
    fs = own ++ .resumed t wrapped :: below := by
  induction fs generalizing own with
  | nil => simp [splitAtResumption] at h
  | cons f fs ih =>
    cases f <;> simp only [splitAtResumption, Option.map_eq_some_iff, Option.some.injEq,
      Prod.mk.injEq, Prod.exists] at h
    case resumed => obtain ⟨rfl, rfl, rfl, rfl⟩ := h; rfl
    all_goals
      obtain ⟨own', t', wrapped', below', h, rfl, rfl, rfl, rfl⟩ := h
      simp [ih h]

/-- Puts the running coroutine aside and gives values to what resumed it. -/
def yield (args : List Value) : M Progress := do
  let st ← get
  match splitAtResumption st.frames with
  | none => raiseBare (Bytes.ofString "attempt to yield from outside a coroutine")
  | some (own, t, wrapped, below) =>
    if inside : own.any Frame.isEnd = false then
      modifyHeap (·.setThread t (.suspended own inside))
      deliver (if wrapped then args else .bool true :: args) below
    else raiseBare (Bytes.ofString "attempt to yield across a C-call boundary")

/-- Starts a call. It is direct when code makes it without a metamethod or a loop in between;
`fuel` bounds protected calls of protected calls. -/
def start (nested : Nested) (calledAs : Option Origin) (isTail direct : Bool) :
    Nat → Value → List Value → M Progress
  | 0, _, _ => raiseText "C stack overflow"
  | fuel + 1, f, args => do
    let (f, args) ← callee calledAs 100 f args
    match f with
    | .ref (.closure id) => enter id args isTail direct
    | .ref (.native n) =>
      let site : Site := ⟨n, calledAs, args, nested (some n)⟩
      modify fun st => { st with latest := some n }
      let again (f : Value) (args : List Value) : M Progress := do
        modify fun st => { st with latest := none }
        start nested none false true fuel f args
      let guarded (handler : Option Value) (rest : List Value) : M Progress := do
        pushFrame (.protected' handler)
        checkNesting (nesting (← get).frames)
        again (args.headD .nil) rest
      match n with
      | .base .pcall =>
        let _ ← site.checkAny 1
        guarded none args.tail
      | .base .xpcall =>
        let handler ← site.checkFunction 2
        guarded (some handler) (args.drop 2)
      | .coroutine .resume =>
        let t ← site.checkThread 1
        resume again t false args.tail
      | .wrapped t => resume again t true args
      | .coroutine .yield => yield args
      | n =>
        let vs ← n.run site
        modify fun st => { st with latest := none }
        deliver vs (← get).frames
    | _ => deliver [] (← get).frames

/-- How many protected calls can be calls of protected calls. -/
def maxDirect : Nat := 250

/-- Starts a call that code makes. -/
def begin' (nested : Nested) (calledAs : Option Origin) (isTail direct : Bool) (f : Value)
    (args : List Value) : M Progress :=
  start nested calledAs isTail direct maxDirect f args

/-! ### Steps -/

/-- Fails at the place of a function. -/
def failAt (a : Activation) (message : Bytes) : M α := raise (.str (a.place ++ message))

/-- One step of the innermost function. -/
def step (nested : Nested) : M Progress := do
  match ← get with
  | ⟨heap, .activation a :: rest, cap, latest, isOverflowing⟩ =>
    match a.code.proto.code[a.pc]? with
    | none => deliver [] rest
    | some i =>
      let op := a.code.proto.operation a.pc i
      match op.exec cap heap { a with pc := a.pc + 1 } with
      | .go a heap =>
        set (State.mk heap (.activation a :: rest) cap latest isOverflowing)
        return .running
      | .call f args direct a heap =>
        set (State.mk heap (.activation a :: rest) cap latest isOverflowing)
        begin' nested none false direct f args
      | .replace f args a heap =>
        set (State.mk heap (.activation a :: rest) cap latest isOverflowing)
        let (f, args) ← callee none 100 f args
        if let .ref (.closure _) := f then
          setFrames rest
          begin' nested none true true f args
        else begin' nested none false true f args
      | .ret vs heap =>
        set (State.mk heap rest cap latest isOverflowing)
        deliver vs rest
      | .fault message a heap =>
        set (State.mk heap (.activation a :: rest) cap latest isOverflowing)
        failAt a message
      | .outOfMemory a heap =>
        set (State.mk heap (.activation a :: rest) cap latest isOverflowing)
        throw .memory
  | ⟨_, frames, _, _, _⟩ => deliver [] frames

/-! ### Errors -/

/-- The handler that sees errors where they are raised. -/
def handler? : List Frame → Option Value
  | [] => none
  | .protected' h :: _ => h
  | .hostCall h :: _ => h
  | .resumed .. :: _ => none
  | _ :: rest => handler? rest

/-- Lets the handler see an error; what it makes of it takes the error's place. -/
def handled (nested : Nested) (v : Value) : M Failure := do
  let st ← get
  match handler? st.frames with
  | none => return .raised v true
  | some f =>
    tryCatch (do let vs ← nested st.latest f [v]; pure (.raised (vs.headD .nil) true)) pure

/-- Where an error lands: at a protected call, or at the end of a coroutine. -/
inductive Landing where
  | protectedCall (handler : Option Value) (below : List Frame)
  | resumption (thread : Nat) (wrapped : Bool) (below : List Frame)

/-- The frames that an error drops, and where it lands. -/
def landing? : List Frame → Option (List Frame × Landing)
  | [] => none
  | .protected' h :: rest => some ([], .protectedCall h rest)
  | .resumed t wrapped :: rest => some ([], .resumption t wrapped rest)
  | f :: rest => (landing? rest).map fun (own, l) => (f :: own, l)

/-- The frame where errors land, and the frames below it. -/
def Landing.frames : Landing → List Frame
  | .protectedCall handler below => .protected' handler :: below
  | .resumption t wrapped below => .resumed t wrapped :: below

/-- An error drops the frames above the one where it lands, and no others. -/
theorem eq_append_of_landing? {fs dropped : List Frame} {l : Landing}
    (h : landing? fs = some (dropped, l)) : fs = dropped ++ l.frames := by
  induction fs generalizing dropped with
  | nil => simp [landing?] at h
  | cons f fs ih =>
    cases f <;> simp only [landing?, Option.map_eq_some_iff, Option.some.injEq, Prod.mk.injEq,
      Prod.exists] at h
    case protected' => obtain ⟨rfl, rfl⟩ := h; rfl
    case resumed => obtain ⟨rfl, rfl⟩ := h; rfl
    all_goals
      obtain ⟨dropped', l', h, rfl, rfl⟩ := h
      simp [ih h]

/-- What is left to do about an error. -/
inductive Recovery where
  | done (p : Progress)
  /-- It is raised once more, from what resumed a coroutine. -/
  | again (f : Failure)

/-- Gives up frames after a failure. Their variables are closed above the frame where it
lands; an error of that takes the place of the failure. -/
def giveUp (nested : Nested) (dropped : List Frame) (f : Failure) (landed : Frame)
    (below : List Frame) : M Failure := do
  modify fun st => { st with frames := landed :: below, latest := none }
  let e ← Coroutines.closeAll (nested none) (Coroutines.pending dropped) (some f)
  modify fun st => { st with frames := below, isOverflowing := false }
  return e.getD f

/-- Lands a handled error among the frames above `base`, or lets it go on below. -/
def land (nested : Nested) (base : Nat) (f : Failure) : M Recovery := do
  let frames := (← get).frames
  let own := frames.take (frames.length - base)
  let under := frames.drop (frames.length - base)
  match landing? own with
  | none => throw f
  | some (dropped, .protectedCall handler below) =>
    let f ← giveUp nested dropped f (.protected' handler) (below ++ under)
    return .done (← deliver [.bool false, f.value] (below ++ under))
  | some (dropped, .resumption t true below) =>
    let f ← giveUp nested dropped f (.resumed t true) (below ++ under)
    modifyHeap (·.setThread t .dead)
    match f, f.value with
    | .memory, _ => return .again .memory
    | _, .str b => return .again (.raised (.str ((← position 1) ++ b)) false)
    | _, v => return .again (.raised v false)
  | some (dropped, .resumption t false below) =>
    let f ← giveUp nested [] f (.resumed t false) (below ++ under)
    modifyHeap (·.setThread t (.failed f.value (Coroutines.pending dropped)))
    return .done (← deliver [.bool false, f.value] (below ++ under))

/-- Deals with a failure of the run whose frames stand above `base`. -/
def recover (nested : Nested) (base : Nat) : Nat → Failure → M Progress
  | 0, f => throw f
  | fuel + 1, f => do
    let f ← match f with
      | .raised v false => handled nested v
      | f => pure f
    if let .exhausted := f then throw f
    match ← land nested base f with
    | .done p => return p
    | .again f => recover nested base fuel f

/-- Does something as part of the run whose frames stand above `base`. -/
def attempt (nested : Nested) (base : Nat) (act : M Progress) : M Progress :=
  tryCatch act fun f => do recover nested base ((← get).frames.length + 1) f

/-! ### Runs -/

/-- Takes steps until the run is finished. -/
def loop (nested : Nested) (base : Nat) : Nat → Progress → M (List Value)
  | _, .finished vs => return vs
  | 0, .running => throw .exhausted
  | n + 1, .running => do loop nested base n (← attempt nested base (step nested))

/-- The number of steps that a run can take. -/
def maxSteps : Nat := 1000000000000

/-- A run above a frame that marks its end, which does something first. -/
def runAbove (nested : Nested) (end' : Frame) (act : M Progress) : M (List Value) := do
  pushFrame end'
  let base := (← get).frames.length
  loop nested base maxSteps (← attempt nested base do
    checkNesting (nesting (← get).frames)
    modify fun st => { st with latest := none }
    act)

/-- Calls a function in a run of its own, within bounded depth. -/
def call : Nat → Nested
  | 0 => fun _ _ _ => throw .exhausted
  | d + 1 => fun by' f args =>
    runAbove (call d) (.boundary by') (begin' (call d) none false true f args)

/-- How deep runs within runs can be. -/
def maxDepth : Nat := 300

/-- Calls a function in a run of its own. -/
def callFunction : Nested := call maxDepth

/-- Does something as a call of the host. When it fails, what waited is given up and its
variables are closed. -/
def asHost (handler : Option Value) (act : M Progress) : M (List Value) :=
  tryCatch (runAbove callFunction (.hostCall handler) act) fun f => do
    throw (← giveUp callFunction (← get).frames f (.hostCall handler) [])

end LuaCapsule.Lua.Machine
