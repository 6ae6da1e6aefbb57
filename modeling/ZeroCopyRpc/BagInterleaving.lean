import ZeroCopyRpc.BagMachine
import ZeroCopyRpc.Ownership

/-!
# Any threads on one bag

`push` and `try_pop` read the successor of a head before the compare-exchange
that makes it the new head, and `remove` reads the successor of a node before
the compare-exchange on the link to it. By then the node may have been taken
and linked again, and the node before it may have left the chain, so that the
exchange succeeds on a link that no longer matters. As long as no such
exchange succeeds, the two chains stay apart and no item is lost.
-/
namespace BagMachine

open LinkedChain Ownership Transitions

variable {τ α : Type}

/-- An exchange that succeeds finds the successor it has read, and `remove`
finds the node before it on the chain. -/
def Sound (w : World τ α) : Event τ α → Prop
  | .call _ _ => True
  | .advance t weakFailure => match w.phase t with
    | .swappingFree _ oldHead next =>
      weakFailure = false → w.bag.freeListHead = some oldHead → w.bag.next oldHead = next
    | .swappingPop head next => weakFailure = false → w.bag.itemsHead = some head → w.bag.next head = next
    | .unlinking _ none current next => w.bag.itemsHead = some current → w.bag.next current = next
    | .unlinking _ (some previous) current next =>
      w.bag.next previous = some current → w.bag.next current = next ∧
        ∃ items, Chain w.bag.next w.bag.itemsHead items ∧ previous ∈ items
    | _ => True

/-- The node that a thread has taken off one chain and not yet put on the other. -/
def Carries (phase : Phase α) (n : Nat) : Prop :=
  match phase with
  | .storing _ newNode => newNode = n
  | .loadingItems newNode => newNode = n
  | .linkingItem newNode _ => newNode = n
  | .swappingItems newNode _ => newNode = n
  | .readingResult head => head = n
  | .loadingSpare index => index = n
  | .linkingSpare index _ => index = n
  | .swappingSpare index _ => index = n
  | _ => False

/-- A carried node that has its item already. -/
def Loaded (phase : Phase α) (n : Nat) : Prop :=
  match phase with
  | .loadingItems newNode => newNode = n
  | .linkingItem newNode _ => newNode = n
  | .swappingItems newNode _ => newNode = n
  | _ => False

/-- A carried node whose successor is the head as the thread last saw it. -/
def Linked (phase : Phase α) (n : Nat) (head : Option Nat) : Prop :=
  match phase with
  | .swappingItems newNode oldHead => newNode = n ∧ oldHead = head
  | .swappingSpare index oldHead => index = n ∧ oldHead = head
  | _ => False

def Owns (w : World τ α) (t : τ) (n : Nat) : Prop := Carries (w.phase t) n

def Filled (w : World τ α) (items : List Nat) (n : Nat) : Prop := n ∈ items ∨ ∃ t, Loaded (w.phase t) n

/-- The pushes that the nodes got their items from are told apart, and none of
those items has been taken. -/
structure Labelled (w : World τ α) (items : List Nat) : Prop where
  reachable : ∀ k ∈ w.pushed, k ∉ w.taken → ∃ n ∈ items, w.label n = k
  fresh : ∀ n, Filled w items n → w.label n < w.begun ∧ w.label n ∉ w.taken
  distinct : ∀ m n, Filled w items m → Filled w items n → w.label m = w.label n → m = n
  takenBelow : ∀ k ∈ w.taken, k < w.begun
  once : w.taken.Nodup

structure Inv (w : World τ α) (items free : List Nat) : Prop where
  used : Chain w.bag.next w.bag.itemsHead items
  spare : Chain w.bag.next w.bag.freeListHead free
  apart : ∀ n ∈ items, n ∉ free
  bound : ∀ n ∈ items ++ free, n < w.bag.capacity
  shared : SharedOut w.bag.capacity (items ++ free) (Owns w)
  linked : ∀ t n h, Linked (w.phase t) n h → w.bag.next n = h
  labelled : Labelled w items

variable {w w' : World τ α} {items free : List Nat} {t : τ}

theorem Loaded.carries {phase : Phase α} {n : Nat} (h : Loaded phase n) : Carries phase n := by
  cases phase <;> first | exact h | cases h

theorem Linked.carries {phase : Phase α} {n : Nat} {head : Option Nat}
    (h : Linked phase n head) : Carries phase n := by
  cases phase <;> first | exact h.1 | cases h

theorem Inv.not_items (h : Inv w items free) {n : Nat} (hn : Owns w t n) : n ∉ items :=
  fun hi => h.shared.not_stocked hn (List.mem_append_left free hi)

theorem Inv.not_free (h : Inv w items free) {n : Nat} (hn : Owns w t n) : n ∉ free :=
  fun hi => h.shared.not_stocked hn (List.mem_append_right items hi)

theorem inv_start (capacity : Nat) (default : α) :
    Inv (start capacity default : World τ α) [] (List.range' 0 capacity) := by
  have hspare := ConcurrentBag.new_spare capacity 0 default (Nat.zero_le _)
  rw [Nat.sub_zero] at hspare
  refine ⟨rfl, hspare, by simp, ?_, ⟨fun _ _ _ hf => False.elim hf, fun _ _ hf => False.elim hf, ?_⟩,
    fun _ _ _ hf => False.elim hf, ?_⟩
  · intro n hn
    simpa [start, ConcurrentBag.new] using hn
  · intro n hn
    have hmem : n ∈ [] ++ List.range' 0 capacity := by simpa [start, ConcurrentBag.new] using hn
    exact ⟨fun hout => absurd hmem hout, fun howned => howned.elim fun _ hf => False.elim hf⟩
  · have hnone : ∀ n, ¬ Filled (start capacity default : World τ α) [] n := by
      rintro n (hn | ⟨_, hf⟩)
      · exact absurd hn List.not_mem_nil
      · exact hf
    refine ⟨?_, fun n hn => absurd hn (hnone n), fun m _ hm => absurd hm (hnone m), ?_, List.nodup_nil⟩
    · exact fun k hk => absurd hk List.not_mem_nil
    · exact fun k hk => absurd hk List.not_mem_nil

variable [DecidableEq τ] {phase : Phase α} {items' free' : List Nat}

theorem owns_move (hphase : w'.phase = Function.update w.phase t phase) (u : τ) (n : Nat) :
    Owns w' u n ↔ if u = t then Carries phase n else Owns w u n := by
  rw [Owns, hphase]
  by_cases hu : u = t
  · rw [if_pos hu, hu, Function.update_self]
  · rw [if_neg hu, Function.update_of_ne hu]
    rfl

theorem loaded_move (hphase : w'.phase = Function.update w.phase t phase) {u : τ} {n : Nat}
    (h : Loaded (w'.phase u) n) : Loaded phase n ∨ (u ≠ t ∧ Loaded (w.phase u) n) := by
  rw [hphase] at h
  by_cases hu : u = t
  · rw [hu, Function.update_self] at h
    exact Or.inl h
  · rw [Function.update_of_ne hu] at h
    exact Or.inr ⟨hu, h⟩

theorem linked_move (h : Inv w items free) (hphase : w'.phase = Function.update w.phase t phase)
    (hmine : ∀ n head, Linked phase n head → w'.bag.next n = head)
    (hothers : ∀ u n, u ≠ t → Owns w u n → w'.bag.next n = w.bag.next n) :
    ∀ u n head, Linked (w'.phase u) n head → w'.bag.next n = head := by
  intro u n head
  rw [hphase]
  by_cases hu : u = t
  · rw [hu, Function.update_self]
    exact hmine n head
  · rw [Function.update_of_ne hu]
    intro hlinked
    rw [hothers u n hu hlinked.carries]
    exact h.linked u n head hlinked

/-- The owners stay the same when a thread carries on with the same node. -/
theorem owns_same (hphase : w'.phase = Function.update w.phase t phase)
    (hcarries : ∀ n, Carries phase n ↔ Carries (w.phase t) n) (u : τ) (n : Nat) : Owns w' u n ↔ Owns w u n := by
  rw [owns_move hphase]
  by_cases hu : u = t
  · rw [if_pos hu, hu, hcarries]
    rfl
  · rw [if_neg hu]

/-- The thread has taken a node. -/
theorem owns_taken (hphase : w'.phase = Function.update w.phase t phase) {c : Nat}
    (hnew : ∀ n, Carries phase n ↔ c = n) (hold : ∀ n, ¬ Carries (w.phase t) n) (u : τ) (n : Nat) :
    Owns w' u n ↔ Owns w u n ∨ (u = t ∧ n = c) := by
  rw [owns_move hphase]
  by_cases hu : u = t
  · rw [if_pos hu, hnew, hu, Owns]
    simp only [hold, false_or, true_and, eq_comm]
  · rw [if_neg hu]
    simp only [hu, false_and, or_false]

/-- The thread has given its node away. -/
theorem owns_given (hphase : w'.phase = Function.update w.phase t phase) {c : Nat}
    (hnew : ∀ n, ¬ Carries phase n) (hold : ∀ n, Carries (w.phase t) n ↔ c = n) (u : τ) (n : Nat) :
    Owns w' u n ↔ Owns w u n ∧ ¬ (u = t ∧ n = c) := by
  rw [owns_move hphase]
  by_cases hu : u = t
  · rw [if_pos hu, hu, Owns, hold]
    simp only [hnew, true_and, eq_comm, and_not_self]
  · rw [if_neg hu]
    simp only [hu, false_and, not_false_eq_true, and_true]

omit [DecidableEq τ] in
/-- Nothing is stored or taken, and no node gets an item. -/
theorem Labelled.keep (h : Labelled w items) (hlabel : w'.label = w.label) (hbegun : w'.begun = w.begun)
    (htaken : w'.taken = w.taken) (hfilled : ∀ n, Filled w' items' n → Filled w items n)
    (hreachable : ∀ k ∈ w'.pushed, k ∉ w.taken → ∃ n ∈ items', w.label n = k) : Labelled w' items' := by
  refine ⟨?_, ?_, ?_, ?_, ?_⟩
  · rw [htaken, hlabel]
    exact hreachable
  · intro n hn
    rw [hlabel, hbegun, htaken]
    exact h.fresh n (hfilled n hn)
  · intro m n hm hn
    rw [hlabel]
    exact h.distinct m n (hfilled m hm) (hfilled n hn)
  · rw [htaken, hbegun]
    exact h.takenBelow
  · rw [htaken]
    exact h.once

omit [DecidableEq τ] in
/-- The item of one node is taken. -/
theorem Labelled.remove (h : Labelled w items) {c : Nat} (hc : c ∈ items) (hlabel : w'.label = w.label)
    (hbegun : w'.begun = w.begun) (hpushed : w'.pushed = w.pushed) (htaken : w'.taken = w.taken ++ [w.label c])
    (hitems : ∀ n, n ∈ items' ↔ n ∈ items ∧ n ≠ c)
    (hfilled : ∀ n, Filled w' items' n → Filled w items n ∧ n ≠ c) :
    Labelled w' items' := by
  have hcfilled : Filled w items c := Or.inl hc
  refine ⟨?_, ?_, ?_, ?_, ?_⟩
  · intro k hk hout
    rw [hpushed] at hk
    rw [htaken, List.mem_append, not_or, List.mem_singleton] at hout
    obtain ⟨n, hn, rfl⟩ := h.reachable k hk hout.1
    refine ⟨n, (hitems n).mpr ⟨hn, ?_⟩, by rw [hlabel]⟩
    rintro rfl
    exact hout.2 rfl
  · intro n hn
    obtain ⟨hfill, hne⟩ := hfilled n hn
    obtain ⟨hlt, hout⟩ := h.fresh n hfill
    rw [hlabel, hbegun, htaken, List.mem_append, not_or, List.mem_singleton]
    exact ⟨hlt, hout, fun he => hne (h.distinct n c hfill hcfilled he)⟩
  · intro m n hm hn
    rw [hlabel]
    exact h.distinct m n (hfilled m hm).1 (hfilled n hn).1
  · intro k hk
    rw [htaken, List.mem_append, List.mem_singleton] at hk
    rw [hbegun]
    rcases hk with hk | rfl
    · exact h.takenBelow k hk
    · exact (h.fresh c hcfilled).1
  · rw [htaken, List.nodup_append]
    refine ⟨h.once, List.nodup_singleton _, ?_⟩
    rintro k hk _ hmem rfl
    rw [List.mem_singleton] at hmem
    exact (h.fresh c hcfilled).2 (hmem ▸ hk)

/-- The thread goes on and the bag stays as it is. -/
theorem inv_goto (h : Inv w items free) (hcarries : ∀ n, Carries phase n ↔ Carries (w.phase t) n)
    (hloaded : ∀ n, Loaded phase n → Loaded (w.phase t) n) (hlinked : ∀ n head, ¬ Linked phase n head) :
    Inv (w.goto t phase) items free := by
  refine ⟨h.used, h.spare, h.apart, h.bound, h.shared.congr (fun _ => Iff.rfl) (owns_same rfl hcarries), ?_, ?_⟩
  · exact linked_move h rfl (fun n head hl => absurd hl (hlinked n head)) (fun _ _ _ _ => rfl)
  · refine h.labelled.keep rfl rfl rfl ?_ h.labelled.reachable
    rintro n (hn | ⟨u, hu⟩)
    · exact Or.inl hn
    · rcases loaded_move rfl hu with hu | ⟨-, hu⟩
      · exact Or.inr ⟨t, hloaded n hu⟩
      · exact Or.inr ⟨u, hu⟩

/-- `push` has the first free node. -/
theorem inv_takeFree {item : α} {oldHead : Nat} {next : Option Nat} (h : Inv w items free)
    (hphase : w.phase t = .swappingFree item oldHead next) (hhead : w.bag.freeListHead = some oldHead)
    (hnext : w.bag.next oldHead = next) : ∃ rest, free = oldHead :: rest ∧
      Inv (({ w with bag := { w.bag with freeListHead := next } } : World τ α).goto t
        (.storing item oldHead)) items rest := by
  cases free with
  | nil =>
    have hnone : w.bag.freeListHead = none := h.spare
    rw [hhead] at hnone
    cases hnone
  | cons first rest =>
    have hspare := h.spare
    obtain ⟨hfirst, hrest⟩ := hspare
    rw [hhead] at hfirst
    cases hfirst
    rw [hnext] at hrest
    have hout := (List.nodup_cons.mp (chain_nodup h.spare)).1
    have hitems : oldHead ∉ items := fun hi => h.apart oldHead hi List.mem_cons_self
    have hfree : oldHead ∈ items ++ oldHead :: rest := List.mem_append_right items List.mem_cons_self
    refine ⟨rest, rfl, h.used, hrest, ?_, ?_, ?_, ?_, ?_⟩
    · exact fun n hn hr => h.apart n hn (List.mem_cons_of_mem oldHead hr)
    · intro n hn
      apply h.bound n
      rw [List.mem_append] at hn ⊢
      exact hn.imp_right (List.mem_cons_of_mem oldHead)
    · refine h.shared.take (t := t) hfree (h.bound oldHead hfree) ?_ (owns_taken rfl (fun _ => Iff.rfl) ?_)
      · intro n
        simp only [List.mem_append, List.mem_cons]
        constructor
        · intro hn
          refine ⟨hn.imp_right Or.inr, ?_⟩
          rintro rfl
          exact hn.elim hitems hout
        · rintro ⟨hn | hn | hn, hne⟩
          · exact Or.inl hn
          · exact absurd hn hne
          · exact Or.inr hn
      · intro n
        rw [hphase]
        exact id
    · exact linked_move h rfl (fun n head hl => False.elim hl) (fun _ _ _ _ => rfl)
    · refine h.labelled.keep rfl rfl rfl ?_ h.labelled.reachable
      rintro n (hn | ⟨u, hu⟩)
      · exact Or.inl hn
      · rcases loaded_move rfl hu with hu | ⟨-, hu⟩
        · exact False.elim hu
        · exact Or.inr ⟨u, hu⟩

/-- The item of a push is in its node. -/
theorem inv_storing {item : α} {newNode : Nat} (h : Inv w items free) (hphase : w.phase t = .storing item newNode) :
    Inv (({ w with
      bag := { w.bag with value := Function.update w.bag.value newNode item }
      label := Function.update w.label newNode w.begun
      begun := w.begun + 1 } : World τ α).goto t (.loadingItems newNode)) items free := by
  have hmine : Owns w t newNode := by
    rw [Owns, hphase]
    rfl
  have hitems := h.not_items hmine
  refine ⟨h.used, h.spare, h.apart, h.bound, h.shared.congr (fun _ => Iff.rfl) (owns_same rfl ?_), ?_, ?_⟩
  · intro n
    rw [hphase]
    rfl
  · exact linked_move h rfl (fun n head hl => False.elim hl) (fun _ _ _ _ => rfl)
  · have hfilled : ∀ n, Filled (({ w with
        bag := { w.bag with value := Function.update w.bag.value newNode item }
        label := Function.update w.label newNode w.begun
        begun := w.begun + 1 } : World τ α).goto t (.loadingItems newNode)) items n →
          n = newNode ∨ (n ≠ newNode ∧ Filled w items n) := by
      rintro n (hn | ⟨u, hu⟩)
      · refine Or.inr ⟨?_, Or.inl hn⟩
        rintro rfl
        exact hitems hn
      · rcases loaded_move rfl hu with hu | ⟨hne, hu⟩
        · exact Or.inl hu.symm
        · refine Or.inr ⟨?_, Or.inr ⟨u, hu⟩⟩
          rintro rfl
          exact hne (h.shared.unique u t n hu.carries hmine)
    refine ⟨?_, ?_, ?_, ?_, h.labelled.once⟩
    · intro k hk hout
      obtain ⟨n, hn, rfl⟩ := h.labelled.reachable k hk hout
      refine ⟨n, hn, Function.update_of_ne ?_ ..⟩
      rintro rfl
      exact hitems hn
    · intro n hn
      simp only [goto_label]
      rcases hfilled n hn with rfl | ⟨hne, hn⟩
      · rw [Function.update_self]
        exact ⟨Nat.lt_succ_self _, fun hk => Nat.lt_irrefl _ (h.labelled.takenBelow _ hk)⟩
      · rw [Function.update_of_ne hne]
        obtain ⟨hlt, hout⟩ := h.labelled.fresh n hn
        exact ⟨Nat.lt_succ_of_lt hlt, hout⟩
    · intro m n hm hn
      simp only [goto_label]
      rcases hfilled m hm with rfl | ⟨hmne, hmold⟩
      · rcases hfilled n hn with rfl | ⟨hnne, hnold⟩
        · exact fun _ => rfl
        · rw [Function.update_self, Function.update_of_ne hnne]
          exact fun he => absurd (h.labelled.fresh n hnold).1 (by omega)
      · rcases hfilled n hn with rfl | ⟨hnne, hnold⟩
        · rw [Function.update_self, Function.update_of_ne hmne]
          exact fun he => absurd (h.labelled.fresh m hmold).1 (by omega)
        · rw [Function.update_of_ne hmne, Function.update_of_ne hnne]
          exact h.labelled.distinct m n hmold hnold
    · exact fun k hk => Nat.lt_succ_of_lt (h.labelled.takenBelow k hk)

/-- A carried node gets the head of a chain as its successor. -/
theorem inv_link {c : Nat} {oldHead : Option Nat} (h : Inv w items free) (hmine : Owns w t c)
    (hcarries : ∀ n, Carries phase n ↔ Carries (w.phase t) n)
    (hloaded : ∀ n, Loaded phase n → Loaded (w.phase t) n)
    (hlinked : ∀ n head, Linked phase n head → c = n ∧ oldHead = head) :
    Inv (({ w with bag := { w.bag with next := Function.update w.bag.next c oldHead } } : World τ α).goto t phase)
      items free := by
  refine ⟨chain_update h.used (h.not_items hmine) _, chain_update h.spare (h.not_free hmine) _, h.apart, h.bound,
    h.shared.congr (fun _ => Iff.rfl) (owns_same rfl hcarries), ?_, ?_⟩
  · refine linked_move h rfl ?_ ?_
    · intro n head hl
      obtain ⟨rfl, rfl⟩ := hlinked n head hl
      exact Function.update_self ..
    · intro u n hu hn
      refine Function.update_of_ne ?_ ..
      rintro rfl
      exact hu (h.shared.unique u t n hn hmine)
  · refine h.labelled.keep rfl rfl rfl ?_ h.labelled.reachable
    rintro n (hn | ⟨u, hu⟩)
    · exact Or.inl hn
    · rcases loaded_move rfl hu with hu | ⟨-, hu⟩
      · exact Or.inr ⟨t, hloaded n hu⟩
      · exact Or.inr ⟨u, hu⟩

/-- The new node of a push is the new head, and the push returns true. -/
theorem inv_pushItems {newNode : Nat} (h : Inv w items free)
    (hphase : w.phase t = .swappingItems newNode w.bag.itemsHead) :
    Inv (({ w with
      bag := { w.bag with itemsHead := some newNode }
      pushed := w.pushed ++ [w.label newNode] } : World τ α).goto t .idle) (newNode :: items) free := by
  have hmine : Owns w t newNode := by
    rw [Owns, hphase]
    rfl
  have hloaded : Loaded (w.phase t) newNode := by
    rw [hphase]
    rfl
  have hnext : w.bag.next newNode = w.bag.itemsHead := by
    apply h.linked t
    rw [hphase]
    exact ⟨rfl, rfl⟩
  refine ⟨⟨rfl, ?_⟩, h.spare, ?_, ?_, ?_, ?_, ?_⟩
  · simp only [goto_bag]
    rw [hnext]
    exact h.used
  · intro n hn
    rcases List.mem_cons.mp hn with rfl | hn
    · exact h.not_free hmine
    · exact h.apart n hn
  · intro n hn
    rw [List.cons_append] at hn
    rcases List.mem_cons.mp hn with rfl | hn
    · exact h.shared.bound t n hmine
    · exact h.bound n hn
  · refine h.shared.give hmine ?_ (owns_given rfl (fun n (hf : Carries (.idle : Phase α) n) => hf) ?_)
    · intro n
      rw [List.cons_append, List.mem_cons, or_comm]
    · intro n
      rw [hphase]
      rfl
  · exact linked_move h rfl (fun n head hl => False.elim hl) (fun _ _ _ _ => rfl)
  · refine h.labelled.keep rfl rfl rfl ?_ ?_
    · rintro n (hn | ⟨u, hu⟩)
      · rcases List.mem_cons.mp hn with rfl | hn
        · exact Or.inr ⟨t, hloaded⟩
        · exact Or.inl hn
      · rcases loaded_move rfl hu with hu | ⟨-, hu⟩
        · exact False.elim hu
        · exact Or.inr ⟨u, hu⟩
    · intro k hk hout
      rcases List.mem_append.mp hk with hk | hk
      · obtain ⟨n, hn, hlabel⟩ := h.labelled.reachable k hk hout
        exact ⟨n, List.mem_cons_of_mem newNode hn, hlabel⟩
      · rw [List.mem_singleton] at hk
        exact ⟨newNode, List.mem_cons_self, hk.symm⟩

/-- A node has been cut out of the items, and its item is taken. -/
theorem inv_cut {c : Nat} {l₁ l₂ : List Nat} {bag : ConcurrentBag α} (h : Inv w (l₁ ++ c :: l₂) free)
    (hused : Chain bag.next bag.itemsHead (l₁ ++ l₂)) (hhead : bag.freeListHead = w.bag.freeListHead)
    (hcapacity : bag.capacity = w.bag.capacity) (hnext : ∀ n, n ∉ l₁ ++ c :: l₂ → bag.next n = w.bag.next n)
    (hold : ∀ n, ¬ Carries (w.phase t) n) (hnew : ∀ n, Carries phase n ↔ c = n)
    (hloaded : ∀ n, ¬ Loaded phase n)
    (hlinked : ∀ n head, ¬ Linked phase n head) :
    Inv (({ w with bag := bag, taken := w.taken ++ [w.label c] } : World τ α).goto t phase) (l₁ ++ l₂) free := by
  have hc : c ∈ l₁ ++ c :: l₂ := by simp
  have hnodup := chain_nodup h.used
  have hout : c ∉ l₁ ++ l₂ := by
    rw [List.nodup_middle, List.nodup_cons] at hnodup
    exact hnodup.1
  have hmem : ∀ n, n ∈ l₁ ++ l₂ ↔ n ∈ l₁ ++ c :: l₂ ∧ n ≠ c := by
    intro n
    constructor
    · intro hn
      refine ⟨?_, ?_⟩
      · rw [List.mem_append] at hn ⊢
        exact hn.imp_right (List.mem_cons_of_mem c)
      · rintro rfl
        exact hout hn
    · rintro ⟨hn, hne⟩
      rw [List.mem_append, List.mem_cons] at hn
      rw [List.mem_append]
      exact hn.imp_right (fun hn => hn.resolve_left hne)
  have hcfree : c ∉ free := h.apart c hc
  refine ⟨hused, ?_, ?_, ?_, ?_, ?_, ?_⟩
  · simp only [goto_bag]
    rw [hhead]
    exact chain_congr h.spare (fun n hn => hnext n (fun hi => h.apart n hi hn))
  · exact fun n hn => h.apart n ((hmem n).mp hn).1
  · intro n hn
    simp only [goto_bag]
    rw [hcapacity]
    apply h.bound n
    rw [List.mem_append] at hn ⊢
    exact hn.imp_left (fun hn => ((hmem n).mp hn).1)
  · simp only [goto_bag]
    rw [hcapacity]
    have hstock : c ∈ (l₁ ++ c :: l₂) ++ free := List.mem_append_left free hc
    refine h.shared.take (t := t) hstock (h.bound c hstock) ?_ (owns_taken rfl hnew hold)
    intro n
    constructor
    · intro hn
      rcases List.mem_append.mp hn with hn | hn
      · exact ⟨List.mem_append_left free ((hmem n).mp hn).1, ((hmem n).mp hn).2⟩
      · refine ⟨List.mem_append_right _ hn, ?_⟩
        rintro rfl
        exact hcfree hn
    · rintro ⟨hn, hne⟩
      rcases List.mem_append.mp hn with hn | hn
      · exact List.mem_append_left free ((hmem n).mpr ⟨hn, hne⟩)
      · exact List.mem_append_right _ hn
  · refine linked_move h rfl (fun n head hl => absurd hl (hlinked n head)) ?_
    intro u n _ hn
    exact hnext n (h.not_items hn)
  · refine h.labelled.remove hc rfl rfl rfl rfl hmem ?_
    rintro n (hn | ⟨u, hu⟩)
    · exact ⟨Or.inl ((hmem n).mp hn).1, ((hmem n).mp hn).2⟩
    · rcases loaded_move rfl hu with hu | ⟨-, hu⟩
      · exact absurd hu (hloaded n)
      · refine ⟨Or.inr ⟨u, hu⟩, ?_⟩
        rintro rfl
        exact h.not_items hu.carries hc

variable (phase) in
/-- The head is off the items. -/
theorem inv_removeHead {current : Nat} {next : Option Nat} (h : Inv w items free)
    (hhead : w.bag.itemsHead = some current) (hnext : w.bag.next current = next)
    (hold : ∀ n, ¬ Carries (w.phase t) n) (hnew : ∀ n, Carries phase n ↔ current = n)
    (hloaded : ∀ n, ¬ Loaded phase n)
    (hlinked : ∀ n head, ¬ Linked phase n head) : ∃ rest, items = current :: rest ∧
      Inv (({ w with
        bag := { w.bag with itemsHead := next }
        taken := w.taken ++ [w.label current] } : World τ α).goto t phase) rest free := by
  cases items with
  | nil =>
    have hnone : w.bag.itemsHead = none := h.used
    rw [hhead] at hnone
    cases hnone
  | cons first rest =>
    have hused := h.used
    obtain ⟨hfirst, hrest⟩ := hused
    rw [hhead] at hfirst
    cases hfirst
    rw [hnext] at hrest
    have hsplit : Inv w ([] ++ current :: rest) free := h
    exact ⟨rest, rfl, inv_cut hsplit hrest rfl rfl (fun _ _ => rfl) hold hnew hloaded hlinked⟩

variable (phase) in
/-- A node behind another one is off the items. -/
theorem inv_removeInner {previous current : Nat} {next : Option Nat} (h : Inv w items free)
    (hprevious : previous ∈ items) (hlink : w.bag.next previous = some current) (hnext : w.bag.next current = next)
    (hold : ∀ n, ¬ Carries (w.phase t) n) (hnew : ∀ n, Carries phase n ↔ current = n)
    (hloaded : ∀ n, ¬ Loaded phase n)
    (hlinked : ∀ n head, ¬ Linked phase n head) : ∃ l₁ l₂, items = l₁ ++ previous :: current :: l₂ ∧
      Inv (({ w with
        bag := { w.bag with next := Function.update w.bag.next previous next }
        taken := w.taken ++ [w.label current] } : World τ α).goto t phase) (l₁ ++ previous :: l₂) free := by
  obtain ⟨l₁, l, rfl⟩ := List.append_of_mem hprevious
  have hfrom := (chain_from h.used).2
  cases l with
  | nil =>
    rw [chain_nil, hlink] at hfrom
    cases hfrom
  | cons first l₂ =>
    rw [chain_cons, hlink] at hfrom
    obtain ⟨hfirst, -⟩ := hfrom
    cases hfirst
    have hskip := chain_skip h.used
    rw [hnext] at hskip
    have hsplit : l₁ ++ previous :: current :: l₂ = (l₁ ++ [previous]) ++ current :: l₂ := by simp
    have hjoin : l₁ ++ previous :: l₂ = (l₁ ++ [previous]) ++ l₂ := by simp
    refine ⟨l₁, l₂, rfl, ?_⟩
    rw [hsplit] at h
    rw [hjoin] at hskip ⊢
    refine inv_cut h hskip rfl rfl ?_ hold hnew hloaded hlinked
    intro n hn
    refine Function.update_of_ne ?_ ..
    rintro rfl
    simp at hn

/-- The node of a removed item is the first free one. -/
theorem inv_pushFree {index : Nat} (h : Inv w items free)
    (hphase : w.phase t = .swappingSpare index w.bag.freeListHead) :
    Inv (({ w with bag := { w.bag with freeListHead := some index } } : World τ α).goto t .idle) items
      (index :: free) := by
  have hmine : Owns w t index := by
    rw [Owns, hphase]
    rfl
  have hnext : w.bag.next index = w.bag.freeListHead := by
    apply h.linked t
    rw [hphase]
    exact ⟨rfl, rfl⟩
  refine ⟨h.used, ⟨rfl, ?_⟩, ?_, ?_, ?_, ?_, ?_⟩
  · simp only [goto_bag]
    rw [hnext]
    exact h.spare
  · intro n hn hm
    rcases List.mem_cons.mp hm with rfl | hm
    · exact h.not_items hmine hn
    · exact h.apart n hn hm
  · intro n hn
    rw [List.mem_append, List.mem_cons] at hn
    rcases hn with hn | rfl | hn
    · exact h.bound n (List.mem_append_left free hn)
    · exact h.shared.bound t n hmine
    · exact h.bound n (List.mem_append_right items hn)
  · refine h.shared.give hmine ?_ (owns_given rfl (fun n (hf : Carries (.idle : Phase α) n) => hf) ?_)
    · intro n
      simp only [List.mem_append, List.mem_cons]
      tauto
    · intro n
      rw [hphase]
      rfl
  · exact linked_move h rfl (fun n head hl => False.elim hl) (fun _ _ _ _ => rfl)
  · refine h.labelled.keep rfl rfl rfl ?_ h.labelled.reachable
    rintro n (hn | ⟨u, hu⟩)
    · exact Or.inl hn
    · rcases loaded_move rfl hu with hu | ⟨-, hu⟩
      · exact False.elim hu
      · exact Or.inr ⟨u, hu⟩

/-- A thread without a node goes on without one. -/
theorem inv_goto_empty (h : Inv w items free) (hold : ∀ n, ¬ Carries (w.phase t) n)
    (hnew : ∀ n, ¬ Carries phase n) :
    Inv (w.goto t phase) items free := by
  refine inv_goto h ?_ (fun n hl => absurd hl.carries (hnew n)) (fun n _ hl => hnew n hl.carries)
  exact fun n => ⟨fun hn => absurd hn (hnew n), fun hn => absurd hn (hold n)⟩

omit [DecidableEq τ] in
theorem not_carries_walkOn (item : α) (previous current : Option Nat) (n : Nat) :
    ¬ Carries (walkOn item previous current) n := by
  cases current <;> exact id

/-- Where a thread stands inside `push`. -/
def Pushing : Phase α → Prop
  | .loadingFree _ => True
  | .readingFree _ _ => True
  | .swappingFree _ _ _ => True
  | .storing _ _ => True
  | .loadingItems _ => True
  | .linkingItem _ _ => True
  | .swappingItems _ _ => True
  | _ => False

/-- A step of a push leaves what is on the items, and any other step what is on
the free list. -/
structure Leaves (w w' : World τ α) (phase : Phase α) (items free items' free' : List Nat) : Prop where
  items : Pushing phase → ∀ n ∈ items, n ∈ items' ∧ w'.bag.next n = w.bag.next n ∧
    entryOf w' n = entryOf w n
  free : ¬ Pushing phase → ∀ n ∈ free, n ∈ free' ∧ w'.bag.next n = w.bag.next n

omit [DecidableEq τ] in
theorem leaves_same (hnext : w'.bag.next = w.bag.next) (hvalue : w'.bag.value = w.bag.value)
    (hlabel : w'.label = w.label)
    (hitems : ∀ n ∈ items, n ∈ items') (hfree : ∀ n ∈ free, n ∈ free') :
    Leaves w w' phase items free items' free' := by
  refine ⟨fun _ n hn => ⟨hitems n hn, by rw [hnext], ?_⟩, fun _ n hn => ⟨hfree n hn, by rw [hnext]⟩⟩
  rw [entryOf, entryOf, hvalue, hlabel]

omit [DecidableEq τ] in
theorem leaves_next {c : Nat} {v : Option Nat} (hnext : w'.bag.next = Function.update w.bag.next c v)
    (hvalue : w'.bag.value = w.bag.value) (hlabel : w'.label = w.label)
    (hitems : Pushing phase → c ∉ items ∧ items' = items)
    (hfree : ¬ Pushing phase → c ∉ free) : Leaves w w' phase items free items' free := by
  refine ⟨?_, ?_⟩
  · intro hp n hn
    obtain ⟨hout, rfl⟩ := hitems hp
    refine ⟨hn, ?_, by rw [entryOf, entryOf, hvalue, hlabel]⟩
    rw [hnext]
    refine Function.update_of_ne ?_ ..
    rintro rfl
    exact hout hn
  · intro hp n hn
    refine ⟨hn, ?_⟩
    rw [hnext]
    refine Function.update_of_ne ?_ ..
    rintro rfl
    exact hfree hp hn

section Step

variable [BEq α] {weakFailure : Bool} {old : Phase α}

omit [DecidableEq τ] in
/-- A step that leaves the bag alone takes its thread no node and gives it none. -/
theorem Reads.carries (h : Reads w old phase) (n : Nat) : Carries phase n ↔ Carries old n := by
  cases h with
  | first | next | headMoved | linkMoved => exact iff_of_false (not_carries_walkOn _ _ _ n) id
  | _ => exact Iff.rfl

omit [DecidableEq τ] in
theorem Reads.loaded (h : Reads w old phase) (n : Nat) (hn : Loaded phase n) : Loaded old n := by
  cases h with
  | first | next | headMoved | linkMoved => exact absurd hn.carries (not_carries_walkOn _ _ _ n)
  | _ => exact hn

omit [DecidableEq τ] in
theorem Reads.linked (h : Reads w old phase) (n : Nat) (head : Option Nat) : ¬ Linked phase n head := by
  cases h with
  | first | next | headMoved | linkMoved => exact fun hn => not_carries_walkOn _ _ _ n hn.carries
  | _ => exact id

/-- What the bag still is after a step. -/
theorem inv_advance (h : Inv w items free) (hsound : Sound w (.advance t weakFailure))
    (hstep : advance w t weakFailure = some w') :
    ∃ items' free', Inv w' items' free' ∧ Leaves w w' (w.phase t) items free items' free' := by
  rcases advance_cases hstep with ⟨phase, hreads, rfl⟩ | ⟨phase, v, hwrites, rfl⟩
  · exact ⟨items, free, inv_goto h hreads.carries hreads.loaded hreads.linked,
      leaves_same rfl rfl rfl (fun _ hn => hn) (fun _ hn => hn)⟩
  rw [Sound] at hsound
  generalize hphase : w.phase t = old at hwrites hsound ⊢
  have hempty : (∀ n, ¬ Carries old n) → ∀ n, ¬ Carries (w.phase t) n := fun hold => by rwa [hphase]
  have hmine : ∀ {n}, Carries old n → Owns w t n := fun hn => by rwa [Owns, hphase]
  have hcarries : ∀ {new : Phase α}, (∀ n, Carries new n ↔ Carries old n) → ∀ n, Carries new n ↔
      Carries (w.phase t) n :=
    fun hnew => by rwa [hphase]
  have hloaded : ∀ {new : Phase α}, (∀ n, Loaded new n → Loaded old n) → ∀ n, Loaded new n →
      Loaded (w.phase t) n :=
    fun hnew => by rwa [hphase]
  cases hwrites with
  | takeFree hhead hweak =>
    obtain ⟨rest, rfl, hinv⟩ := inv_takeFree h hphase hhead (hsound hweak hhead)
    exact ⟨items, rest, hinv, ⟨fun _ n hn => ⟨hn, rfl, rfl⟩, fun hp => absurd trivial hp⟩⟩
  | @store item newNode =>
    refine ⟨items, free, inv_storing h hphase, ⟨fun _ n hn => ⟨hn, rfl, ?_⟩, fun hp => absurd trivial hp⟩⟩
    have hne : n ≠ newNode := by
      rintro rfl
      exact h.not_items (hmine rfl) hn
    simp only [entryOf, goto_label, goto_bag, Function.update_of_ne hne]
  | linkItem =>
    exact ⟨items, free, inv_link h (hmine rfl) (hcarries fun _ => Iff.rfl) (hloaded fun _ => id) (fun _ _ => id),
      leaves_next rfl rfl rfl (fun _ => ⟨h.not_items (hmine rfl), rfl⟩) (fun hp => absurd trivial hp)⟩
  | @pushItem newNode =>
    exact ⟨newNode :: items, free, inv_pushItems h hphase,
      leaves_same rfl rfl rfl (fun _ hn => List.mem_cons_of_mem _ hn) (fun _ hn => hn)⟩
  | popItem hhead hweak =>
    obtain ⟨rest, -, hinv⟩ := inv_removeHead (.readingResult _) h hhead (hsound hweak hhead) (hempty fun _ => id)
      (fun _ => Iff.rfl) (fun _ => id) (fun _ _ => id)
    exact ⟨rest, free, hinv, ⟨False.elim, fun _ n hn => ⟨hn, rfl⟩⟩⟩
  | linkSpare =>
    exact ⟨items, free, inv_link h (hmine rfl) (hcarries fun _ => Iff.rfl) (fun _ => False.elim) (fun _ _ => id),
      leaves_next rfl rfl rfl False.elim (fun _ => h.not_free (hmine rfl))⟩
  | @pushSpare index =>
    exact ⟨items, index :: free, inv_pushFree h hphase,
      leaves_same rfl rfl rfl (fun _ hn => hn) (fun _ hn => List.mem_cons_of_mem _ hn)⟩
  | removeHead hhead =>
    obtain ⟨rest, -, hinv⟩ := inv_removeHead (.loadingSpare _) h hhead (hsound hhead) (hempty fun _ => id)
      (fun _ => Iff.rfl) (fun _ => id) (fun _ _ => id)
    exact ⟨rest, free, hinv, ⟨False.elim, fun _ n hn => ⟨hn, rfl⟩⟩⟩
  | removeInner hlink =>
    obtain ⟨hnext, items', hchain, hprevious⟩ := hsound hlink
    rw [chain_unique hchain h.used] at hprevious
    obtain ⟨l₁, l₂, -, hinv⟩ := inv_removeInner (.loadingSpare _) h hprevious hlink hnext (hempty fun _ => id)
      (fun _ => Iff.rfl) (fun _ => id) (fun _ _ => id)
    refine ⟨l₁ ++ _ :: l₂, free, hinv, ⟨False.elim, fun _ n hn => ⟨hn, ?_⟩⟩⟩
    refine Function.update_of_ne ?_ ..
    rintro rfl
    exact h.apart n hprevious hn
  | pass =>
    have hinv : Inv (w.goto t .idle) items free := inv_goto_empty h (hempty fun _ => id) (fun _ => id)
    refine ⟨items, free, ?_, leaves_same rfl rfl rfl (fun _ hn => hn) (fun _ hn => hn)⟩
    exact ⟨hinv.used, hinv.spare, hinv.apart, hinv.bound, hinv.shared, hinv.linked,
      hinv.labelled.keep rfl rfl rfl (fun _ hn => hn) hinv.labelled.reachable⟩

theorem inv_step (h : Inv w items free) {e : Event τ α} (hsound : Sound w e) (hstep : step w e = some w') :
    ∃ items' free', Inv w' items' free' := by
  cases e with
  | call t c =>
    simp only [step] at hstep
    cases hphase : w.phase t with
    | idle =>
      rw [hphase] at hstep
      cases hstep
      refine ⟨items, free, inv_goto_empty h (fun n => by rw [hphase]; exact id) ?_⟩
      cases c <;> exact fun _ => id
    | _ =>
      rw [hphase] at hstep
      cases hstep
  | advance t weakFailure =>
    obtain ⟨items', free', hinv, -⟩ := inv_advance h hsound hstep
    exact ⟨items', free', hinv⟩

end Step

/-- The two chains end and share no node, and every item that was pushed and not
taken is on the chain from `items_head`. -/
def Safe (w : World τ α) : Prop :=
  ∃ items free, Chain w.bag.next w.bag.itemsHead items ∧ Chain w.bag.next w.bag.freeListHead free ∧
    (∀ n ∈ items, n ∉ free) ∧ ∀ k ∈ w.pushed, k ∉ w.taken → ∃ n ∈ items, w.label n = k

/-- In every run in which each successful exchange finds the successor it has
read, and `remove` the node before it on the chain, every state is safe. -/
theorem bag_safe [BEq α] {capacity : Nat} {default : α} {es : List (Event τ α)}
    (hsound : Guarded step Sound (start capacity default) es) (hvisit : Visits step (start capacity default) es w) :
    Safe w := by
  have hinv : ∃ items free, Inv w items free :=
    guarded_visits (I := fun w => ∃ items free, Inv w items free)
      (fun w e w' ⟨_, _, h⟩ hg hstep => inv_step h hg hstep) ⟨_, _, inv_start capacity default⟩ hsound hvisit
  obtain ⟨items, free, h⟩ := hinv
  exact ⟨items, free, h.used, h.spare, h.apart, h.labelled.reachable⟩

def advances (t count : Nat) : List (Event Nat Nat) := List.replicate count (.advance t false)

/-- A `remove` of the only item takes it off the chain while a push stands before
its exchange on that head; the exchange fails, and the push goes round once more. -/
def pushedWhileRemoved : List (Event Nat Nat) :=
  [.call 0 (.push 5)] ++ advances 0 7 ++ [.call 1 (.remove 5), .call 0 (.push 7)] ++ advances 0 6 ++ advances 1 4 ++
    advances 0 3 ++ advances 1 3

theorem bag_safe_pushed_while_removed : ∃ w, run step (start 2 0) pushedWhileRemoved = some w ∧
    w.pushed = [0, 1] ∧ w.taken = [0] ∧ Safe w := by
  have hguard : Guarded step Sound (start 2 0) pushedWhileRemoved :=
    -- the push of 5
    guarded_step trivial rfl <| guarded_step trivial rfl <| guarded_step trivial rfl <|
      guarded_step (fun _ _ => rfl) rfl <| guarded_step trivial rfl <| guarded_step trivial rfl <|
      guarded_step trivial rfl <| guarded_step trivial rfl <|
    -- the two calls, and the push of 7 up to its exchange
    guarded_step trivial rfl <| guarded_step trivial rfl <| guarded_step trivial rfl <|
      guarded_step trivial rfl <| guarded_step (fun _ _ => rfl) rfl <| guarded_step trivial rfl <|
      guarded_step trivial rfl <| guarded_step trivial rfl <|
    -- the remove unlinks 5
    guarded_step trivial rfl <| guarded_step trivial rfl <| guarded_step trivial rfl <|
      guarded_step (fun _ => rfl) rfl <|
    guarded_step trivial rfl <| guarded_step trivial rfl <| guarded_step trivial rfl <|
    guarded_step trivial rfl <| guarded_step trivial rfl <| guarded_step trivial rfl <| guarded_nil _ _ _
  exact ⟨_, rfl, rfl, rfl, bag_safe hguard (visits_end rfl)⟩

omit [DecidableEq τ] in
theorem not_safe_of_same_head {n : Nat} (hitems : w.bag.itemsHead = some n) (hfree : w.bag.freeListHead = some n) :
    ¬ Safe w := by
  rintro ⟨items, free, hused, hspare, hapart, -⟩
  exact hapart n (mem_of_head hused n hitems) (mem_of_head hspare n hfree)

/-- A `remove` of the second item stands before its exchange on the link from
the first one; a `try_pop` takes the first one; then the exchange succeeds. -/
def unlinkedBehindPopped : List (Event Nat Nat) :=
  [.call 0 (.push 5)] ++ advances 0 7 ++ [.call 0 (.push 7)] ++ advances 0 7 ++
    [.call 1 (.remove 5)] ++ advances 1 5 ++
    [.call 2 .tryPop] ++ advances 2 3 ++ advances 1 4

theorem node_in_both_chains : ∃ w, run step (start 2 0) unlinkedBehindPopped = some w ∧ ¬ Safe w := by
  have hrun : (run step (start 2 0) unlinkedBehindPopped).map (fun w => (w.bag.itemsHead, w.bag.freeListHead)) =
      some (some 0, some 0) := by
    decide +kernel
  obtain ⟨w, hw, he⟩ := Option.map_eq_some_iff.mp hrun
  obtain ⟨hitems, hfree⟩ := Prod.mk.inj he
  exact ⟨w, hw, not_safe_of_same_head hitems hfree⟩

end BagMachine
