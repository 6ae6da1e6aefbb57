import ZeroCopyRpc.ConcurrentBag
import ZeroCopyRpc.Transitions

/-!
# The bag, one atomic step at a time

Any number of threads call `push`, `try_pop` and `remove` and iterate. Every
load, store and compare-exchange is one step. A compare-exchange that fails
loads the actual value into its expected variable; the weak ones may also fail
where the comparison holds.

`label`, `begun`, `pushed`, `taken` and `passes` are history variables: which
push the value of a node came from, how many pushes have stored their item,
which of them returned true, whose items were taken out, and what each
iteration found when it started and what it visited. No step reads them.
-/
namespace BagMachine

open LinkedChain Transitions

/-- Where a thread stands inside a call. -/
inductive Phase (α : Type) where
  | idle
  -- push
  | loadingFree (item : α)
  | readingFree (item : α) (oldHead : Nat)
  | swappingFree (item : α) (oldHead : Nat) (next : Option Nat)
  | storing (item : α) (newNode : Nat)
  | loadingItems (newNode : Nat)
  | linkingItem (newNode : Nat) (oldHead : Option Nat)
  | swappingItems (newNode : Nat) (oldHead : Option Nat)
  -- try_pop
  | loadingPop
  | readingPop (head : Nat)
  | swappingPop (head : Nat) (next : Option Nat)
  | readingResult (head : Nat)
  -- the end of try_pop and remove
  | loadingSpare (index : Nat)
  | linkingSpare (index : Nat) (oldHead : Option Nat)
  | swappingSpare (index : Nat) (oldHead : Option Nat)
  -- remove
  | loadingRemove (item : α)
  | readingValue (item : α) (previous : Option Nat) (current : Nat)
  | readingNext (item : α) (previous : Option Nat) (current : Nat) (currentValue : α)
  | unlinking (item : α) (previous : Option Nat) (current : Nat) (next : Option Nat)
  -- an iteration, with what it found and what it has visited
  | beginning
  | iterating (found visited : List (Nat × α)) (current : Option Nat)
  | moving (found visited : List (Nat × α)) (current : Nat)

structure World (τ α : Type) where
  bag : ConcurrentBag α
  phase : τ → Phase α
  label : Nat → Nat
  begun : Nat
  pushed : List Nat
  taken : List Nat
  passes : List (List (Nat × α) × List (Nat × α))

inductive Call (α : Type) where
  | push (item : α)
  | tryPop
  | remove (item : α)
  | iterate

inductive Event (τ α : Type) where
  | call (thread : τ) (c : Call α)
  | advance (thread : τ) (weakFailure : Bool)

def Call.first {α : Type} : Call α → Phase α
  | .push item => .loadingFree item
  | .tryPop => .loadingPop
  | .remove item => .loadingRemove item
  | .iterate => .beginning

variable {τ α : Type}

/-- The loop of `remove` goes on at `current`, or ends. -/
def walkOn (item : α) (previous current : Option Nat) : Phase α :=
  match current with
  | none => .idle
  | some current => .readingValue item previous current

def entryOf (w : World τ α) (n : Nat) : Nat × α := (w.label n, w.bag.value n)

variable [DecidableEq τ]

def World.goto (w : World τ α) (t : τ) (phase : Phase α) : World τ α :=
  { w with phase := Function.update w.phase t phase }

/-- The next atomic step of a call in progress. -/
def advance [BEq α] (w : World τ α) (t : τ) (weakFailure : Bool) : Option (World τ α) :=
  match w.phase t with
  | .idle => none
  | .loadingFree item =>
    match w.bag.freeListHead with
    | none => some (w.goto t .idle)
    | some oldHead => some (w.goto t (.readingFree item oldHead))
  | .readingFree item oldHead => some (w.goto t (.swappingFree item oldHead (w.bag.next oldHead)))
  | .swappingFree item oldHead next =>
    if w.bag.freeListHead = some oldHead ∧ weakFailure = false then
      some ({ w with bag := { w.bag with freeListHead := next } }.goto t (.storing item oldHead))
    else
      match w.bag.freeListHead with
      | none => some (w.goto t .idle)
      | some oldHead => some (w.goto t (.readingFree item oldHead))
  | .storing item newNode =>
    some ({ w with
      bag := { w.bag with value := Function.update w.bag.value newNode item }
      label := Function.update w.label newNode w.begun
      begun := w.begun + 1 }.goto t (.loadingItems newNode))
  | .loadingItems newNode => some (w.goto t (.linkingItem newNode w.bag.itemsHead))
  | .linkingItem newNode oldHead =>
    some ({ w with bag := { w.bag with next := Function.update w.bag.next newNode oldHead } }.goto t
      (.swappingItems newNode oldHead))
  | .swappingItems newNode oldHead =>
    if w.bag.itemsHead = oldHead ∧ weakFailure = false then
      some ({ w with
        bag := { w.bag with itemsHead := some newNode }
        pushed := w.pushed ++ [w.label newNode] }.goto t .idle)
    else some (w.goto t (.linkingItem newNode w.bag.itemsHead))
  | .loadingPop =>
    match w.bag.itemsHead with
    | none => some (w.goto t .idle)
    | some head => some (w.goto t (.readingPop head))
  | .readingPop head => some (w.goto t (.swappingPop head (w.bag.next head)))
  | .swappingPop head next =>
    if w.bag.itemsHead = some head ∧ weakFailure = false then
      some ({ w with
        bag := { w.bag with itemsHead := next }
        taken := w.taken ++ [w.label head] }.goto t (.readingResult head))
    else
      match w.bag.itemsHead with
      | none => some (w.goto t .idle)
      | some head => some (w.goto t (.readingPop head))
  | .readingResult head => some (w.goto t (.loadingSpare head))
  | .loadingSpare index => some (w.goto t (.linkingSpare index w.bag.freeListHead))
  | .linkingSpare index oldHead =>
    some ({ w with bag := { w.bag with next := Function.update w.bag.next index oldHead } }.goto t
      (.swappingSpare index oldHead))
  | .swappingSpare index oldHead =>
    if w.bag.freeListHead = oldHead ∧ weakFailure = false then
      some ({ w with bag := { w.bag with freeListHead := some index } }.goto t .idle)
    else some (w.goto t (.linkingSpare index w.bag.freeListHead))
  | .loadingRemove item => some (w.goto t (walkOn item none w.bag.itemsHead))
  | .readingValue item previous current =>
    some (w.goto t (.readingNext item previous current (w.bag.value current)))
  | .readingNext item previous current currentValue =>
    if currentValue == item then some (w.goto t (.unlinking item previous current (w.bag.next current)))
    else some (w.goto t (walkOn item (some current) (w.bag.next current)))
  | .unlinking item none current next =>
    if w.bag.itemsHead = some current then
      some ({ w with
        bag := { w.bag with itemsHead := next }
        taken := w.taken ++ [w.label current] }.goto t (.loadingSpare current))
    -- the failed exchange has put the actual head into `current`
    else some (w.goto t (walkOn item w.bag.itemsHead next))
  | .unlinking item (some previous) current next =>
    if w.bag.next previous = some current then
      some ({ w with
        bag := { w.bag with next := Function.update w.bag.next previous next }
        taken := w.taken ++ [w.label current] }.goto t (.loadingSpare current))
    else some (w.goto t (walkOn item (w.bag.next previous) next))
  | .beginning =>
    some (w.goto t (.iterating ((walk w.bag.next w.bag.capacity w.bag.itemsHead).map (entryOf w)) [] w.bag.itemsHead))
  | .iterating found visited none => some { w.goto t .idle with passes := w.passes ++ [(found, visited)] }
  | .iterating found visited (some current) =>
    some (w.goto t (.moving found (visited ++ [entryOf w current]) current))
  | .moving found visited current => some (w.goto t (.iterating found visited (w.bag.next current)))

def step [BEq α] : Machine (World τ α) (Event τ α)
  | w, .call t c => match w.phase t with
    | .idle => some (w.goto t c.first)
    | _ => none
  | w, .advance t weakFailure => advance w t weakFailure

def start (capacity : Nat) (default : α) : World τ α :=
  ⟨.new capacity default, fun _ => .idle, fun _ => 0, 0, [], [], []⟩

@[simp] theorem goto_bag (w : World τ α) (t : τ) (phase : Phase α) : (w.goto t phase).bag = w.bag := rfl
@[simp] theorem goto_label (w : World τ α) (t : τ) (phase : Phase α) : (w.goto t phase).label = w.label := rfl
@[simp] theorem goto_same (w : World τ α) (t : τ) (phase : Phase α) : (w.goto t phase).phase t = phase := by
  simp [World.goto]
theorem goto_other (w : World τ α) {t u : τ} (phase : Phase α) (h : u ≠ t) :
    (w.goto t phase).phase u = w.phase u := by
  simp [World.goto, h]

/-- The steps that leave the bag alone, also the failed exchanges: the phase a
thread stands in and the one it goes to. -/
inductive Reads [BEq α] (w : World τ α) : Phase α → Phase α → Prop where
  | noFree {item : α} (hhead : w.bag.freeListHead = none) : Reads w (.loadingFree item) .idle
  | free {item : α} {head : Nat} (hhead : w.bag.freeListHead = some head) :
    Reads w (.loadingFree item) (.readingFree item head)
  | freeNext {item : α} {oldHead : Nat} :
    Reads w (.readingFree item oldHead) (.swappingFree item oldHead (w.bag.next oldHead))
  | freeGone {item : α} {oldHead : Nat} {next : Option Nat} (hhead : w.bag.freeListHead = none) :
    Reads w (.swappingFree item oldHead next) .idle
  | freeMoved {item : α} {oldHead head : Nat} {next : Option Nat} (hhead : w.bag.freeListHead = some head) :
    Reads w (.swappingFree item oldHead next) (.readingFree item head)
  | items {newNode : Nat} : Reads w (.loadingItems newNode) (.linkingItem newNode w.bag.itemsHead)
  | itemsMoved {newNode : Nat} {oldHead : Option Nat} :
    Reads w (.swappingItems newNode oldHead) (.linkingItem newNode w.bag.itemsHead)
  | noItem (hhead : w.bag.itemsHead = none) : Reads w .loadingPop .idle
  | item {head : Nat} (hhead : w.bag.itemsHead = some head) : Reads w .loadingPop (.readingPop head)
  | itemNext {head : Nat} : Reads w (.readingPop head) (.swappingPop head (w.bag.next head))
  | itemGone {oldHead : Nat} {next : Option Nat} (hhead : w.bag.itemsHead = none) :
      Reads w (.swappingPop oldHead next) .idle
  | itemMoved {oldHead head : Nat} {next : Option Nat} (hhead : w.bag.itemsHead = some head) :
    Reads w (.swappingPop oldHead next) (.readingPop head)
  | result {head : Nat} : Reads w (.readingResult head) (.loadingSpare head)
  | spare {index : Nat} : Reads w (.loadingSpare index) (.linkingSpare index w.bag.freeListHead)
  | spareMoved {index : Nat} {oldHead : Option Nat} :
    Reads w (.swappingSpare index oldHead) (.linkingSpare index w.bag.freeListHead)
  | first {item : α} : Reads w (.loadingRemove item) (walkOn item none w.bag.itemsHead)
  | value {item : α} {previous : Option Nat} {current : Nat} :
    Reads w (.readingValue item previous current) (.readingNext item previous current (w.bag.value current))
  | found {item currentValue : α} {previous : Option Nat} {current : Nat} :
    Reads w (.readingNext item previous current currentValue) (.unlinking item previous current (w.bag.next current))
  | next {item currentValue : α} {previous : Option Nat} {current : Nat} :
    Reads w (.readingNext item previous current currentValue) (walkOn item (some current) (w.bag.next current))
  | headMoved {item : α} {current : Nat} {next : Option Nat} :
    Reads w (.unlinking item none current next) (walkOn item w.bag.itemsHead next)
  | linkMoved {item : α} {previous current : Nat} {next : Option Nat} :
    Reads w (.unlinking item (some previous) current next) (walkOn item (w.bag.next previous) next)
  | begin :
    Reads w .beginning
      (.iterating ((walk w.bag.next w.bag.capacity w.bag.itemsHead).map (entryOf w)) [] w.bag.itemsHead)
  | visit {found visited : List (Nat × α)} {current : Nat} :
    Reads w (.iterating found visited (some current)) (.moving found (visited ++ [entryOf w current]) current)
  | move {found visited : List (Nat × α)} {current : Nat} :
    Reads w (.moving found visited current) (.iterating found visited (w.bag.next current))

/-- The stores and the exchanges that succeed, and the end of an iteration. -/
inductive Writes (w : World τ α) (weakFailure : Bool) : Phase α → Phase α → World τ α → Prop where
  | takeFree {item : α} {head : Nat} {next : Option Nat} (hhead : w.bag.freeListHead = some head)
    (hweak : weakFailure = false) :
    Writes w weakFailure (.swappingFree item head next) (.storing item head)
      { w with bag := { w.bag with freeListHead := next } }
  | store {item : α} {newNode : Nat} :
    Writes w weakFailure (.storing item newNode) (.loadingItems newNode)
      { w with
        bag := { w.bag with value := Function.update w.bag.value newNode item }
        label := Function.update w.label newNode w.begun
        begun := w.begun + 1 }
  | linkItem {newNode : Nat} {oldHead : Option Nat} :
    Writes w weakFailure (.linkingItem newNode oldHead) (.swappingItems newNode oldHead)
      { w with bag := { w.bag with next := Function.update w.bag.next newNode oldHead } }
  | pushItem {newNode : Nat} :
    Writes w weakFailure (.swappingItems newNode w.bag.itemsHead) .idle
      { w with bag := { w.bag with itemsHead := some newNode }, pushed := w.pushed ++ [w.label newNode] }
  | popItem {head : Nat} {next : Option Nat} (hhead : w.bag.itemsHead = some head) (hweak : weakFailure = false) :
    Writes w weakFailure (.swappingPop head next) (.readingResult head)
      { w with bag := { w.bag with itemsHead := next }, taken := w.taken ++ [w.label head] }
  | linkSpare {index : Nat} {oldHead : Option Nat} :
    Writes w weakFailure (.linkingSpare index oldHead) (.swappingSpare index oldHead)
      { w with bag := { w.bag with next := Function.update w.bag.next index oldHead } }
  | pushSpare {index : Nat} :
    Writes w weakFailure (.swappingSpare index w.bag.freeListHead) .idle
      { w with bag := { w.bag with freeListHead := some index } }
  | removeHead {item : α} {current : Nat} {next : Option Nat} (hhead : w.bag.itemsHead = some current) :
    Writes w weakFailure (.unlinking item none current next) (.loadingSpare current)
      { w with bag := { w.bag with itemsHead := next }, taken := w.taken ++ [w.label current] }
  | removeInner {item : α} {previous current : Nat} {next : Option Nat} (hlink : w.bag.next previous = some current) :
    Writes w weakFailure (.unlinking item (some previous) current next) (.loadingSpare current)
      { w with
        bag := { w.bag with next := Function.update w.bag.next previous next }
        taken := w.taken ++ [w.label current] }
  | pass {found visited : List (Nat × α)} :
    Writes w weakFailure (.iterating found visited none) .idle { w with passes := w.passes ++ [(found, visited)] }

/-- What a step can do. -/
theorem advance_cases [BEq α] {w w' : World τ α} {t : τ} {weakFailure : Bool}
    (hstep : advance w t weakFailure = some w') :
    (∃ phase, Reads w (w.phase t) phase ∧ w' = w.goto t phase) ∨
      ∃ phase v, Writes w weakFailure (w.phase t) phase v ∧ w' = v.goto t phase := by
  rw [advance] at hstep
  cases hphase : w.phase t with
  | idle =>
    rw [hphase] at hstep
    cases hstep
  | loadingFree item =>
    cases hhead : w.bag.freeListHead <;> simp only [hphase, hhead] at hstep <;> cases hstep
    · exact Or.inl ⟨_, .noFree hhead, rfl⟩
    · exact Or.inl ⟨_, .free hhead, rfl⟩
  | swappingFree item oldHead next =>
    simp only [hphase] at hstep
    split at hstep
    · rename_i hswap
      cases hstep
      exact Or.inr ⟨_, _, .takeFree hswap.1 hswap.2, rfl⟩
    · cases hhead : w.bag.freeListHead <;> simp only [hhead] at hstep <;> cases hstep
      · exact Or.inl ⟨_, .freeGone hhead, rfl⟩
      · exact Or.inl ⟨_, .freeMoved hhead, rfl⟩
  | swappingItems newNode oldHead =>
    simp only [hphase] at hstep
    split at hstep
    · rename_i hswap
      cases hstep
      obtain ⟨rfl, -⟩ := hswap
      exact Or.inr ⟨_, _, .pushItem, rfl⟩
    · cases hstep
      exact Or.inl ⟨_, .itemsMoved, rfl⟩
  | loadingPop =>
    cases hhead : w.bag.itemsHead <;> simp only [hphase, hhead] at hstep <;> cases hstep
    · exact Or.inl ⟨_, .noItem hhead, rfl⟩
    · exact Or.inl ⟨_, .item hhead, rfl⟩
  | swappingPop head next =>
    simp only [hphase] at hstep
    split at hstep
    · rename_i hswap
      cases hstep
      exact Or.inr ⟨_, _, .popItem hswap.1 hswap.2, rfl⟩
    · cases hhead : w.bag.itemsHead <;> simp only [hhead] at hstep <;> cases hstep
      · exact Or.inl ⟨_, .itemGone hhead, rfl⟩
      · exact Or.inl ⟨_, .itemMoved hhead, rfl⟩
  | swappingSpare index oldHead =>
    simp only [hphase] at hstep
    split at hstep
    · rename_i hswap
      cases hstep
      obtain ⟨rfl, -⟩ := hswap
      exact Or.inr ⟨_, _, .pushSpare, rfl⟩
    · cases hstep
      exact Or.inl ⟨_, .spareMoved, rfl⟩
  | readingNext item previous current currentValue =>
    simp only [hphase] at hstep
    split at hstep <;> cases hstep
    · exact Or.inl ⟨_, .found, rfl⟩
    · exact Or.inl ⟨_, .next, rfl⟩
  | unlinking item previous current next =>
    cases previous with
    | none =>
      simp only [hphase] at hstep
      split at hstep
      · rename_i hswap
        cases hstep
        exact Or.inr ⟨_, _, .removeHead hswap, rfl⟩
      · cases hstep
        exact Or.inl ⟨_, .headMoved, rfl⟩
    | some previous =>
      simp only [hphase] at hstep
      split at hstep
      · rename_i hswap
        cases hstep
        exact Or.inr ⟨_, _, .removeInner hswap, rfl⟩
      · cases hstep
        exact Or.inl ⟨_, .linkMoved, rfl⟩
  | iterating found visited current =>
    cases current <;> simp only [hphase] at hstep <;> cases hstep
    · exact Or.inr ⟨_, _, .pass, rfl⟩
    · exact Or.inl ⟨_, .visit, rfl⟩
  | storing | linkingItem | linkingSpare =>
    simp only [hphase] at hstep
    cases hstep
    exact Or.inr ⟨_, _, by constructor, rfl⟩
  | _ =>
    simp only [hphase] at hstep
    cases hstep
    exact Or.inl ⟨_, by constructor, rfl⟩

end BagMachine
