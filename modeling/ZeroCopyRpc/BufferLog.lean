import Mathlib.Algebra.GroupWithZero.Nat
import ZeroCopyRpc.CyclicBuffer
import ZeroCopyRpc.SafeLag
import ZeroCopyRpc.Transitions

/-!
# The cyclic buffer as a log

Runs of one buffer: write scopes that are opened, written into, committed and
destroyed, in any order the lock allows, and cursors that are opened and read
at any time. `scopes` is the history of the run, newest scope first; it says
for each finished scope what it asked for, how far its region reaches and what
it published.

Two rings move at different speeds. The slot of an entry is its own as long as
at most `capacity` entries were published from it on. Its bytes are its own
within the safe lag of the byte ring.
-/
namespace BufferLog

open Cells Words SafeLag Transitions

/-- A finished (or refused) write scope. -/
structure ScopeRecord where
  requested : Nat
  reach : Nat
  entry : Option Message

/-- A live scope: what it asked for, and how far from its start it has written or committed. -/
structure Live where
  scope : WriterScope
  requested : Nat
  reach : Nat

/-- A cursor, the next index when it was opened, and its successful reads so far. -/
structure Reader where
  cursor : Cursor
  opened : Nat
  taken : Nat

structure World where
  buffer : CyclicBuffer
  live : Option Live
  readers : List Reader
  scopes : List ScopeRecord

inductive Event where
  | writeScope (minSize : Nat) (type : UInt64)
  | write (position : Nat) (data : List UInt8)
  | commit (size : Nat)
  | destroy
  | openCursor
  | tryRead (reader : Nat)

def start (capacity size : Nat) (items : Nat → Entry) (bytes : Nat → UInt8) : World :=
  ⟨.new capacity size items bytes, none, [], []⟩

/-- What a destroyed scope leaves in the history. -/
def Live.record (l : Live) (b : CyclicBuffer) : ScopeRecord :=
  ⟨l.requested, l.reach, if 0 < l.scope.span.committed then some (l.scope.content b) else none⟩

def step : Machine World Event
  | w, .writeScope minSize type =>
    match w.buffer.writeScope minSize type with
    | .error _ => some { w with scopes := ⟨minSize, 0, none⟩ :: w.scopes }
    | .ok (scope, buffer) => some { w with buffer := buffer, live := some ⟨scope, minSize, 0⟩ }
  | w, .write position data =>
    match w.live with
    | none => none
    | some l =>
      if position + data.length ≤ l.scope.span.size then
        some { w with
          buffer := w.buffer.copy (l.scope.span.start + position) data
          live := some { l with reach := max l.reach (position + data.length) } }
      else none
  | w, .commit size =>
    match w.live with
    | none => none
    | some l =>
      match l.scope.commit w.buffer size with
      | .error _ => some w
      | .ok (scope, buffer) =>
        some { w with buffer := buffer, live := some ⟨scope, l.requested, max l.reach scope.span.committed⟩ }
  | w, .destroy =>
    match w.live with
    | none => none
    | some l => some { w with
        buffer := l.scope.destroy w.buffer
        live := none
        scopes := l.record w.buffer :: w.scopes }
  | w, .openCursor => some { w with readers := w.readers ++ [⟨w.buffer.openCursor, w.buffer.nextIndex, 0⟩] }
  | w, .tryRead i =>
    match w.readers[i]? with
    | none => none
    | some r =>
      match r.cursor.tryRead w.buffer with
      | (false, _) => some w
      | (true, cursor) => some { w with readers := w.readers.set i ⟨cursor, r.opened, r.taken + 1⟩ }

/-- The number of entries the given scopes published. -/
def published (scopes : List ScopeRecord) : Nat := (scopes.filterMap ScopeRecord.entry).length

/-- The length of the regions wrote or committed by the given later scopes and the live one. -/
def World.spent (w : World) (later : List ScopeRecord) : Nat :=
  w.live.elim 0 Live.reach + (later.map ScopeRecord.reach).sum

/-- The largest minSize the given later scopes and the live one requested. -/
def World.asked (w : World) (later : List ScopeRecord) : Nat :=
  max (w.live.elim 0 Live.requested) ((later.map ScopeRecord.requested).foldr max 0)

/-- Entry `index` of the run is `m`; since then `newer` further entries were published,
later scopes used regions of total length `spent` and requested at most `asked`. -/
def Age (w : World) (index : Nat) (m : Message) (newer spent asked : Nat) : Prop :=
  ∃ later record earlier, w.scopes = later ++ record :: earlier ∧ record.entry = some m ∧
    index = published earlier ∧ newer = published later ∧ spent = w.spent later ∧ asked = w.asked later

/-- Write scopes of a run, refused ones included. -/
def writeScopes (events : List Event) : Nat :=
  events.countP (fun e => match e with | .writeScope _ _ => true | _ => false)

@[simp] theorem published_nil : published [] = 0 := rfl

theorem published_cons (r : ScopeRecord) (scopes : List ScopeRecord) :
    published (r :: scopes) = published scopes + if r.entry.isSome then 1 else 0 := by
  cases h : r.entry <;> simp [published, h]

theorem published_append (xs ys : List ScopeRecord) :
    published (xs ++ ys) = published xs + published ys := by
  simp [published]

theorem published_le (scopes : List ScopeRecord) : published scopes ≤ scopes.length :=
  List.length_filterMap_le _ _

/-- The region in use: the live scope's, or the empty one at the pool's offset. -/
def World.base (w : World) : Nat := w.live.elim w.buffer.memory.offset (fun l => l.scope.span.start)

def World.tip (w : World) : Nat := w.live.elim w.buffer.memory.offset (fun l => l.scope.span.start + l.reach)

/-- The slot and, within the safe lag, the bytes of an entry are still its own. -/
def Kept (capacity size : Nat) (w : World) (index : Nat) (m : Message) (newer spent asked : Nat) : Prop :=
  newer + 1 ≤ capacity → ∃ position,
    w.buffer.items (index % capacity) = ⟨m.bytes.length, m.type, position⟩ ∧
    (m.bytes.length + spent + asked ≤ size →
      slice w.buffer.memory.buffer position m.bytes.length = m.bytes ∧
      Clear size position m.bytes.length spent asked w.base w.tip)

/-- What holds between any two events of a run. -/
structure Inv (capacity size : Nat) (w : World) : Prop where
  capacity_eq : w.buffer.capacity = capacity
  size_eq : w.buffer.memory.size = size
  bounded : w.buffer.memory.Bounded
  unlocked : w.live = none → w.buffer.memory.inUse = false
  span : ∀ l, w.live = some l → l.scope.span.Live w.buffer.memory l.requested
  reach : ∀ l, w.live = some l → l.scope.span.committed ≤ l.reach ∧ l.reach ≤ l.scope.span.size
  next : w.buffer.nextIndex = published w.scopes
  logged : w.buffer.log = (w.scopes.filterMap ScopeRecord.entry).reverse
  readers : ∀ r ∈ w.readers, r.cursor = ⟨subWord (r.opened + r.taken) 1⟩ ∧
    r.opened + r.taken ≤ w.buffer.nextIndex
  entries : ∀ index m newer spent asked, Age w index m newer spent asked →
    Kept capacity size w index m newer spent asked

/-- Scopes finished, refused or live. -/
def World.begun (w : World) : Nat := w.live.elim 0 (fun _ => 1) + w.scopes.length

variable {capacity size : Nat} {w w' : World}

theorem inv_start (capacity : Nat) (hs : size < 0x10000000000000000) (items : Nat → Entry) (bytes : Nat → UInt8) :
    Inv capacity size (start capacity size items bytes) := by
  refine ⟨rfl, rfl, CyclicMemoryPool.new_bounded hs bytes, fun _ => rfl, ?_, ?_, rfl, rfl, ?_, ?_⟩
  · intro l hl
    cases hl
  · intro l hl
    cases hl
  · intro r hr
    cases hr
  · rintro index m newer spent asked ⟨later, record, earlier, he, _⟩
    simp [start] at he

/-- Entries of a longer history: the newest scope's own, or an older one with a longer past. -/
theorem age_cons {r : ScopeRecord} {scopes : List ScopeRecord} {index newer spent asked : Nat} {m : Message}
    (h : Age w' index m newer spent asked) (hw : w'.scopes = r :: scopes) :
    (r.entry = some m ∧ index = published scopes ∧ newer = 0 ∧ spent = w'.spent [] ∧ asked = w'.asked []) ∨
    ∃ later record earlier, scopes = later ++ record :: earlier ∧ record.entry = some m ∧
      index = published earlier ∧ newer = published (r :: later) ∧
      spent = w'.spent (r :: later) ∧ asked = w'.asked (r :: later) := by
  obtain ⟨later, record, earlier, he, hr, hi, hn, hs, ha⟩ := h
  rw [hw] at he
  cases later with
  | nil =>
    simp only [List.nil_append, List.cons.injEq] at he
    obtain ⟨rfl, rfl⟩ := he
    exact Or.inl ⟨hr, hi, hn, hs, ha⟩
  | cons r' later =>
    simp only [List.cons_append, List.cons.injEq] at he
    obtain ⟨rfl, he⟩ := he
    exact Or.inr ⟨later, record, earlier, he, hr, hi, hn, hs, ha⟩

/-- An entry stays kept when its slot is not refilled and its block stays intact and clear. -/
theorem kept_of_kept {index newer newer' spent spent' asked asked' : Nat} {m : Message}
    (h : Kept capacity size w index m newer spent asked)
    (hn : newer ≤ newer') (hs : spent ≤ spent') (ha : asked ≤ asked')
    (hi : newer' + 1 ≤ capacity →
      w'.buffer.items (index % capacity) = w.buffer.items (index % capacity))
    (hb : ∀ position, m.bytes.length + spent' + asked' ≤ size →
      Clear size position m.bytes.length spent asked w.base w.tip →
      slice w'.buffer.memory.buffer position m.bytes.length =
        slice w.buffer.memory.buffer position m.bytes.length ∧
      Clear size position m.bytes.length spent' asked' w'.base w'.tip) :
    Kept capacity size w' index m newer' spent' asked' := by
  intro hc
  obtain ⟨position, hp, hsafe⟩ := h (by omega)
  refine ⟨position, (hi hc).trans hp, ?_⟩
  intro hf
  obtain ⟨hbytes, hclear⟩ := hsafe (by omega)
  obtain ⟨hsame, hclear'⟩ := hb position hf hclear
  exact ⟨hsame.trans hbytes, hclear'⟩

/-- A refused request only enters the history. -/
theorem inv_refused (h : Inv capacity size w) (minSize : Nat) :
    Inv capacity size { w with scopes := ⟨minSize, 0, none⟩ :: w.scopes } := by
  refine { h with next := ?_, logged := ?_, entries := ?_ }
  · rw [published_cons]
    exact h.next
  · exact h.logged
  · intro index m newer spent asked ha
    rcases age_cons ha rfl with ⟨hr, _⟩ | ⟨later, record, earlier, he, hr, rfl, rfl, rfl, rfl⟩
    · cases hr
    have hk := h.entries _ _ _ _ _ ⟨later, record, earlier, he, hr, rfl, rfl, rfl, rfl⟩
    have hspent : World.spent { w with scopes := ⟨minSize, 0, none⟩ :: w.scopes }
        (⟨minSize, 0, none⟩ :: later) = w.spent later := by simp [World.spent]
    have hasked : w.asked later ≤ World.asked { w with scopes := ⟨minSize, 0, none⟩ :: w.scopes }
        (⟨minSize, 0, none⟩ :: later) := by
      simp only [World.asked, List.map_cons, List.foldr_cons]
      omega
    refine kept_of_kept hk (by simp [published_cons]) (Nat.le_of_eq hspent.symm) hasked (fun _ => rfl) ?_
    intro position _ hc
    refine ⟨rfl, ?_⟩
    rw [hspent]
    exact clear_asked _ hc hasked

/-- A granted request keeps the place or, when the rest is too short, starts over at zero. -/
theorem inv_granted (h : Inv capacity size w) {minSize : Nat} {type : UInt64} {scope : WriterScope}
    {buffer : CyclicBuffer} (hg : w.buffer.writeScope minSize type = .ok (scope, buffer)) :
    Inv capacity size { w with buffer := buffer, live := some ⟨scope, minSize, 0⟩ } := by
  unfold CyclicBuffer.writeScope at hg
  split at hg
  · cases hg
  rename_i span memory hspan
  simp only [Except.ok.injEq, Prod.mk.injEq] at hg
  obtain ⟨rfl, rfl⟩ := hg
  obtain ⟨hbounded, hlive⟩ := Span.live_of_getWriteSpan h.bounded hspan
  obtain ⟨hm, hfree, hcase⟩ := CyclicMemoryPool.getWriteSpan_ok hspan
  have hnone : w.live = none := by
    cases hl : w.live with
    | none => rfl
    | some l =>
      have := (h.span l hl).locked
      simp [hfree] at this
  have hbuffer : memory.buffer = w.buffer.memory.buffer := by
    rcases hcase with ⟨_, _, rfl⟩ | ⟨_, _, rfl⟩ <;> rfl
  have hsize : memory.size = w.buffer.memory.size := by
    rcases hcase with ⟨_, _, rfl⟩ | ⟨_, _, rfl⟩ <;> rfl
  refine ⟨h.capacity_eq, hsize.trans h.size_eq, hbounded, ?_, ?_, ?_, h.next, h.logged, h.readers, ?_⟩
  · intro hl
    cases hl
  · rintro l ⟨⟩
    exact hlive
  · rintro l ⟨⟩
    exact ⟨by rcases hcase with ⟨_, rfl, _⟩ | ⟨_, rfl, _⟩ <;> simp, by simp⟩
  · rintro index m newer spent asked ⟨later, record, earlier, he, hr, rfl, rfl, rfl, rfl⟩
    have hk := h.entries _ _ _ _ _ ⟨later, record, earlier, he, hr, rfl, rfl, rfl, rfl⟩
    have hspent : World.spent { w with
        buffer := { w.buffer with memory := memory }, live := some ⟨⟨span, type⟩, minSize, 0⟩ } later =
        w.spent later := by simp [World.spent, hnone]
    have hasked : World.asked { w with
        buffer := { w.buffer with memory := memory }, live := some ⟨⟨span, type⟩, minSize, 0⟩ } later =
        max minSize (w.asked later) := by simp [World.asked, hnone]
    refine kept_of_kept hk (Nat.le_refl _) (Nat.le_of_eq hspent.symm) (by rw [hasked]; omega) (fun _ => rfl) ?_
    intro position hfit hc
    refine ⟨by simp only [hbuffer], ?_⟩
    have htip : w.tip = w.buffer.memory.offset := by simp [World.tip, hnone]
    have hbase : w.base = w.buffer.memory.offset := by simp [World.base, hnone]
    rw [hspent, hasked] at hfit ⊢
    rw [htip, hbase] at hc
    have hremaining := CyclicMemoryPool.remaining_eq h.bounded
    have hoffset := h.bounded.offset_le
    have hwide := clear_asked (max minSize (w.asked later)) hc (by omega)
    rcases hcase with ⟨_, rfl, _⟩ | ⟨hshort, rfl, _⟩
    · exact hwide
    · refine clear_restart hwide (Nat.le_max_left minSize _) ?_ hfit
      have hs := h.size_eq
      omega

/-- Writing into the span stays inside the region in use. -/
theorem inv_write (h : Inv capacity size w) {l : Live} (hl : w.live = some l) {position : Nat}
    {data : List UInt8} (hfit : position + data.length ≤ l.scope.span.size) :
    Inv capacity size { w with
      buffer := w.buffer.copy (l.scope.span.start + position) data
      live := some { l with reach := max l.reach (position + data.length) } } := by
  have hspan := h.span l hl
  obtain ⟨hcr, hrs⟩ := h.reach l hl
  refine ⟨h.capacity_eq, h.size_eq, ⟨h.bounded.offset_le, h.bounded.size_lt⟩, ?_, ?_, ?_, h.next,
    h.logged, h.readers, ?_⟩
  · intro hn
    cases hn
  · rintro l' ⟨⟩
    exact ⟨hspan.locked, hspan.bound, hspan.long, hspan.committed_le, hspan.offset_eq⟩
  · rintro l' ⟨⟩
    simp only
    omega
  · rintro index m newer spent asked ⟨later, record, earlier, he, hr, rfl, rfl, rfl, rfl⟩
    have hk := h.entries _ _ _ _ _ ⟨later, record, earlier, he, hr, rfl, rfl, rfl, rfl⟩
    have hspent : World.spent { w with
        buffer := w.buffer.copy (l.scope.span.start + position) data
        live := some { l with reach := max l.reach (position + data.length) } } later =
        w.spent later + (max l.reach (position + data.length) - l.reach) := by
      simp only [World.spent, hl, Option.elim_some]
      omega
    have hasked : World.asked { w with
        buffer := w.buffer.copy (l.scope.span.start + position) data
        live := some { l with reach := max l.reach (position + data.length) } } later = w.asked later := by
      simp [World.asked, hl]
    refine kept_of_kept hk (Nat.le_refl _) (by omega) (Nat.le_of_eq hasked.symm) (fun _ => rfl) ?_
    intro block hf hc
    rw [hspent, hasked] at hf ⊢
    have hbase : w.base = l.scope.span.start := by simp [World.base, hl]
    have htip : w.tip = l.scope.span.start + l.reach := by simp [World.tip, hl]
    rw [hbase, htip] at hc
    have hgrown := clear_extend (l.scope.span.start + max l.reach (position + data.length)) hc
      (by omega) rfl
    have hcost : w.spent later + (l.scope.span.start + max l.reach (position + data.length) -
        (l.scope.span.start + l.reach)) = w.spent later + (max l.reach (position + data.length) - l.reach) := by
      omega
    rw [hcost] at hgrown
    refine ⟨?_, hgrown⟩
    apply slice_store_disjoint
    have hd := clear_disjoint hgrown hf
    omega

/-- An accepted commit moves the offset along with the span's committed part. -/
theorem inv_commit (h : Inv capacity size w) {l : Live} (hl : w.live = some l) {n : Nat}
    {scope : WriterScope} {buffer : CyclicBuffer} (hc : l.scope.commit w.buffer n = .ok (scope, buffer)) :
    Inv capacity size { w with
      buffer := buffer, live := some ⟨scope, l.requested, max l.reach scope.span.committed⟩ } := by
  unfold WriterScope.commit at hc
  split at hc
  · cases hc
  rename_i span memory hspan
  simp only [Except.ok.injEq, Prod.mk.injEq] at hc
  obtain ⟨rfl, rfl⟩ := hc
  obtain ⟨hbounded, hlive, hs, hm⟩ := Span.commit_live h.bounded (h.span l hl) hspan
  obtain ⟨hcr, hrs⟩ := h.reach l hl
  have hstart : span.start = l.scope.span.start := by rw [hs]
  have hwidth : span.size = l.scope.span.size := by rw [hs]
  have hcommitted := hlive.committed_le
  refine ⟨h.capacity_eq, by rw [← h.size_eq, hm], hbounded, ?_, ?_, ?_, h.next, h.logged, h.readers, ?_⟩
  · intro hn
    cases hn
  · rintro l' ⟨⟩
    exact hlive
  · rintro l' ⟨⟩
    simp only
    omega
  · rintro index m newer spent asked ⟨later, record, earlier, he, hr, rfl, rfl, rfl, rfl⟩
    have hk := h.entries _ _ _ _ _ ⟨later, record, earlier, he, hr, rfl, rfl, rfl, rfl⟩
    have hspent : World.spent { w with
        buffer := { w.buffer with memory := memory }
        live := some ⟨{ l.scope with span := span }, l.requested, max l.reach span.committed⟩ } later =
        w.spent later + (max l.reach span.committed - l.reach) := by
      simp only [World.spent, hl, Option.elim_some]
      omega
    have hasked : World.asked { w with
        buffer := { w.buffer with memory := memory }
        live := some ⟨{ l.scope with span := span }, l.requested, max l.reach span.committed⟩ } later =
        w.asked later := by simp [World.asked, hl]
    refine kept_of_kept hk (Nat.le_refl _) (Nat.le_trans (Nat.le_add_right _ _) (Nat.le_of_eq hspent.symm))
      (Nat.le_of_eq hasked.symm) (fun _ => rfl) ?_
    intro block _ hclear
    refine ⟨by simp only [hm], ?_⟩
    rw [hspent, hasked]
    have hbase : w.base = l.scope.span.start := by simp [World.base, hl]
    have htip : w.tip = l.scope.span.start + l.reach := by simp [World.tip, hl]
    rw [hbase, htip] at hclear
    have hgrown := clear_extend (l.scope.span.start + max l.reach span.committed) hclear
      (by omega) rfl
    have hcost : w.spent later + (l.scope.span.start + max l.reach span.committed -
        (l.scope.span.start + l.reach)) = w.spent later + (max l.reach span.committed - l.reach) := by
      omega
    rw [hcost] at hgrown
    simpa only [World.base, World.tip, Option.elim_some, hstart] using hgrown

/-- The world when the live scope is over. -/
def World.finish (w : World) (l : Live) : World :=
  { w with buffer := l.scope.destroy w.buffer, live := none, scopes := l.record w.buffer :: w.scopes }

section Destroy

variable {l : Live} {index newer spent asked : Nat} {m : Message}

theorem finish_memory (w : World) (l : Live) : (w.finish l).buffer.memory = w.buffer.memory.release :=
  WriterScope.destroy_memory l.scope w.buffer

theorem finish_tip (w : World) (l : Live) : (w.finish l).tip = w.buffer.memory.offset := by
  simp [World.tip, World.finish]

theorem finish_base (w : World) (l : Live) : (w.finish l).base = w.buffer.memory.offset := by
  simp [World.base, World.finish]

theorem finish_nextIndex (h : Inv capacity size w) (hcount : w.scopes.length + 1 < 0x10000000000000000) :
    (w.finish l).buffer.nextIndex = published (l.record w.buffer :: w.scopes) := by
  have hpublished := published_le w.scopes
  have hnext := h.next
  rw [World.finish, WriterScope.destroy_nextIndex, published_cons]
  by_cases hp : 0 < l.scope.span.committed
  · simp only [hp, ↓reduceIte, Live.record, Option.isSome_some]
    rw [addWord_exact (by omega), hnext]
  · simp [hp, Live.record, hnext]

/-- The entry published just now: its block ends where the pool's offset stands. -/
theorem kept_newest (h : Inv capacity size w) (hl : w.live = some l) (hr : (l.record w.buffer).entry = some m) :
    Kept capacity size (w.finish l) (published w.scopes) m 0 ((w.finish l).spent []) ((w.finish l).asked []) := by
  have hp : 0 < l.scope.span.committed := by
    by_contra hp
    simp [Live.record, hp] at hr
  have hm : m = l.scope.content w.buffer := by
    simpa [Live.record, hp, eq_comm] using hr
  have hlen : m.bytes.length = l.scope.span.committed := by simp [hm, WriterScope.content]
  intro _
  refine ⟨l.scope.span.start, ?_, ?_⟩
  · rw [World.finish, WriterScope.destroy_items _ _ hp, h.next, h.capacity_eq, Function.update_self, hlen]
    simp [hm, WriterScope.content]
  · intro _
    rw [finish_tip, finish_base, finish_memory, (h.span l hl).offset_eq, hlen]
    refine ⟨by simp [hm, WriterScope.content], ?_⟩
    simpa [World.spent, World.asked, World.finish] using clear_fresh size l.scope.span.start l.scope.span.committed

/-- An older entry: the slot that the destructor fills is that of an entry further on. -/
theorem kept_finish {later earlier : List ScopeRecord} {record : ScopeRecord} (h : Inv capacity size w)
    (hl : w.live = some l) (he : w.scopes = later ++ record :: earlier) (hr : record.entry = some m) :
    Kept capacity size (w.finish l) (published earlier) m (published (l.record w.buffer :: later))
      ((w.finish l).spent (l.record w.buffer :: later)) ((w.finish l).asked (l.record w.buffer :: later)) := by
  have hspan := h.span l hl
  obtain ⟨hcr, hrs⟩ := h.reach l hl
  have hk := h.entries _ _ _ _ _ ⟨later, record, earlier, he, hr, rfl, rfl, rfl, rfl⟩
  have hspent : (w.finish l).spent (l.record w.buffer :: later) = w.spent later := by
    simp [World.spent, World.finish, hl, Live.record]
  have hasked : (w.finish l).asked (l.record w.buffer :: later) = w.asked later := by
    simp [World.asked, World.finish, hl, Live.record]
  refine kept_of_kept hk (by simp [published_cons]) (Nat.le_of_eq hspent.symm) (Nat.le_of_eq hasked.symm) ?_ ?_
  · intro hn
    by_cases hp : 0 < l.scope.span.committed
    · have htotal : published w.scopes = published earlier + 1 + published later := by
        rw [he, published_append, published_cons, hr]
        simp
        omega
      have hnewer : published (l.record w.buffer :: later) = published later + 1 := by
        simp [published_cons, Live.record, hp]
      rw [World.finish, WriterScope.destroy_items _ _ hp, h.next, h.capacity_eq, htotal, Function.update_of_ne]
      intro heq
      have hmod := Nat.sub_mod_eq_zero_of_mod_eq heq.symm
      rw [Nat.mod_eq_of_lt (by omega)] at hmod
      omega
    · simp [World.finish, WriterScope.destroy, WriterScope.publish, hp]
  · intro block _ hclear
    rw [hspent, hasked, finish_tip, finish_base, finish_memory, hspan.offset_eq]
    refine ⟨rfl, ?_⟩
    have hbase : w.base = l.scope.span.start := by simp [World.base, hl]
    have htip : w.tip = l.scope.span.start + l.reach := by simp [World.tip, hl]
    rw [hbase, htip] at hclear
    exact clear_seal hclear (by omega) (by omega)

/-- The destructor publishes the committed region as the newest entry and frees the lock. -/
theorem inv_destroy (h : Inv capacity size w) (hl : w.live = some l)
    (hcount : w.scopes.length + 1 < 0x10000000000000000) : Inv capacity size (w.finish l) := by
  have hnext := finish_nextIndex (l := l) h hcount
  refine ⟨(WriterScope.destroy_capacity l.scope w.buffer).trans h.capacity_eq,
    by rw [finish_memory]; exact h.size_eq, ?_, ?_, ?_, ?_, hnext, ?_, ?_, ?_⟩
  · rw [finish_memory]
    exact ⟨h.bounded.offset_le, h.bounded.size_lt⟩
  · intro _
    rw [finish_memory]
    rfl
  · intro l' hn
    cases hn
  · intro l' hn
    cases hn
  · rw [World.finish, WriterScope.destroy_log, h.logged]
    by_cases hp : 0 < l.scope.span.committed <;> simp [hp, Live.record]
  · intro r hr
    obtain ⟨hcursor, hle⟩ := h.readers r hr
    refine ⟨hcursor, ?_⟩
    have hmore := h.next
    rw [hnext, published_cons]
    omega
  · intro index m newer spent asked ha
    rcases age_cons ha rfl with ⟨hr, rfl, rfl, rfl, rfl⟩ | ⟨later, record, earlier, he, hr, rfl, rfl, rfl, rfl⟩
    · exact kept_newest h hl hr
    · exact kept_finish h hl he hr

end Destroy

theorem inv_openCursor (h : Inv capacity size w) (hs : step w .openCursor = some w') : Inv capacity size w' := by
  simp only [step, Option.some.injEq] at hs
  subst hs
  refine { h with readers := ?_, entries := h.entries }
  intro r hr
  rcases List.mem_append.mp hr with hr | hr
  · exact h.readers r hr
  · rw [List.mem_singleton] at hr
    subst hr
    exact ⟨rfl, Nat.le_refl _⟩

/-- A read that finds an entry moves one reader by one; any other changes nothing. -/
theorem inv_tryRead {i : Nat} (h : Inv capacity size w) (hs : step w (.tryRead i) = some w')
    (hnext : w.buffer.nextIndex < 0x10000000000000000) : Inv capacity size w' := by
  cases hr : w.readers[i]? with
  | none => simp [step, hr] at hs
  | some r =>
    obtain ⟨hcursor, hle⟩ := h.readers r (List.mem_of_getElem? hr)
    simp only [step, hr, hcursor, Cursor.tryRead_eq hnext hle] at hs
    split at hs
    · cases hs
      exact h
    · rename_i cursor hread
      cases hs
      split at hread
      · rename_i hmore
        cases hread
        refine { h with readers := ?_, entries := h.entries }
        intro r' hr'
        rcases List.mem_or_eq_of_mem_set hr' with hr' | rfl
        · exact h.readers r' hr'
        · have hback : subWord (r.opened + (r.taken + 1)) 1 = r.opened + r.taken := by
            rw [subWord_exact (by omega) (by omega)]
            omega
          exact ⟨by simp only [hback], by simp only; omega⟩
      · cases hread

theorem scopes_tryRead {i : Nat} (hs : step w (.tryRead i) = some w') : w'.scopes = w.scopes := by
  simp only [step] at hs
  split at hs
  · cases hs
  · split at hs <;> cases hs <;> rfl

/-- Every event keeps the invariant as long as fewer than 2^64 scopes were begun. -/
theorem inv_step {e : Event} (h : Inv capacity size w) (hs : step w e = some w')
    (hcount : w'.begun < 0x10000000000000000) : Inv capacity size w' := by
  cases e with
  | writeScope minSize type =>
    simp only [step] at hs
    split at hs
    · cases hs
      exact inv_refused h minSize
    · rename_i scope buffer hg
      cases hs
      exact inv_granted h hg
  | write position data =>
    cases hl : w.live with
    | none => simp [step, hl] at hs
    | some l =>
      simp only [step, hl] at hs
      split at hs
      · rename_i hfit
        cases hs
        exact inv_write h hl hfit
      · cases hs
  | commit n =>
    cases hl : w.live with
    | none => simp [step, hl] at hs
    | some l =>
      simp only [step, hl] at hs
      split at hs
      · cases hs
        exact h
      · rename_i scope buffer hc
        cases hs
        exact inv_commit h hl hc
  | destroy =>
    cases hl : w.live with
    | none => simp [step, hl] at hs
    | some l =>
      simp only [step, hl, Option.some.injEq] at hs
      subst hs
      exact inv_destroy h hl (by simpa [World.begun] using hcount)
  | openCursor => exact inv_openCursor h hs
  | tryRead i =>
    refine inv_tryRead h hs ?_
    have hpub := published_le w.scopes
    rw [World.begun, scopes_tryRead hs] at hcount
    rw [h.next]
    omega

/-- A scope is begun by each WriteScope event and by nothing else. -/
theorem begun_step {e : Event} (h : Inv capacity size w) (hs : step w e = some w') :
    w'.begun = w.begun + writeScopes [e] := by
  cases e with
  | writeScope minSize type =>
    simp only [step] at hs
    split at hs
    · cases hs
      simp [World.begun, writeScopes]
      omega
    · rename_i scope buffer hg
      cases hs
      have hnone : w.live = none := by
        unfold CyclicBuffer.writeScope at hg
        split at hg
        · cases hg
        rename_i span memory hspan
        have hfree := (CyclicMemoryPool.getWriteSpan_ok hspan).2.1
        cases hl : w.live with
        | none => rfl
        | some l =>
          have := (h.span l hl).locked
          simp [hfree] at this
      simp [World.begun, writeScopes, hnone]
      omega
  | write position data =>
    cases hl : w.live <;> simp only [step, hl] at hs
    · cases hs
    · split at hs <;> cases hs
      simp [World.begun, writeScopes, hl]
  | commit n =>
    cases hl : w.live <;> simp only [step, hl] at hs
    · cases hs
    · split at hs <;> cases hs <;> simp [World.begun, writeScopes, hl]
  | destroy =>
    cases hl : w.live <;> simp only [step, hl] at hs <;> cases hs
    simp [World.begun, writeScopes, hl]
    omega
  | openCursor =>
    cases hs
    simp [World.begun, writeScopes]
  | tryRead i =>
    cases hr : w.readers[i]? <;> simp only [step, hr] at hs
    · cases hs
    · split at hs <;> cases hs <;> simp [World.begun, writeScopes]

/-- The invariant holds at the end of every run of fewer than 2^64 write scopes. -/
theorem inv_run {events : List Event} (h : Inv capacity size w)
    (hrun : run step w events = some w') (hcount : w.begun + writeScopes events < 0x10000000000000000) :
    Inv capacity size w' ∧ w'.begun < 0x10000000000000000 := by
  induction events generalizing w with
  | nil =>
    cases hrun
    exact ⟨h, by omega⟩
  | cons e events ih =>
    obtain ⟨t, ht, hrest⟩ := run_cons_some hrun
    have hb := begun_step h ht
    have hsplit : writeScopes (e :: events) = writeScopes [e] + writeScopes events := by
      simp only [writeScopes, List.countP_cons, List.countP_nil]
      omega
    rw [hsplit] at hcount
    exact ih (inv_step h ht (by omega)) hrest (by omega)

/-- Every index below the next one belongs to one entry of the log. -/
theorem age_of_lt (scopes : List ScopeRecord) {index : Nat} (h : index < published scopes) :
    ∃ later record earlier m, scopes = later ++ record :: earlier ∧ record.entry = some m ∧
      index = published earlier ∧ published scopes = published earlier + 1 + published later ∧
      (scopes.filterMap ScopeRecord.entry).reverse[index]? = some m := by
  induction scopes with
  | nil => simp at h
  | cons r scopes ih =>
    by_cases hold : index < published scopes
    · obtain ⟨later, record, earlier, m, rfl, hr, hi, hp, hm⟩ := ih hold
      refine ⟨r :: later, record, earlier, m, rfl, hr, hi, ?_, ?_⟩
      · rw [published_cons, published_cons, hp]
        omega
      · have hlen : index < ((later ++ record :: earlier).filterMap ScopeRecord.entry).reverse.length := by
          rw [List.length_reverse]
          exact hold
        cases he : r.entry with
        | none => simpa only [List.filterMap_cons, he] using hm
        | some m' =>
          simp only [List.filterMap_cons, he, List.reverse_cons]
          rw [List.getElem?_append_left hlen]
          exact hm
    · cases he : r.entry with
      | none =>
        rw [published_cons, he] at h
        exact absurd h hold
      | some m =>
        have hi : index = published scopes := by
          rw [published_cons, he] at h
          simp only [Option.isSome_some, ↓reduceIte] at h
          omega
        refine ⟨[], r, scopes, m, rfl, he, hi, ?_, ?_⟩
        · simp [published_cons, he]
        · simp [he, hi, published]

/-- The buffer delivers an exact log. In every run of fewer than 2^64 write
scopes every index below the next one is one entry; a reader's unread entries
are those from `opened + taken` on, `Remaining` counts them, and `TryRead`
yields the first of them unless there is none or as many as 2^64 - 1. The slot
and the bytes of the entry read last are its own as long as the slot ring has
not come around to it and the byte ring is within the safe lag; `Size` gives
the low 32 bits of its length. -/
theorem fifo_log {capacity size : Nat} (hsize : size < 0x10000000000000000)
    (items : Nat → Entry) (bytes : Nat → UInt8)
    (events : List Event) (w : World) (hrun : run step (start capacity size items bytes) events = some w)
    (hscopes : writeScopes events < 0x10000000000000000) :
    (∀ index < w.buffer.nextIndex, ∃ m newer spent asked, Age w index m newer spent asked ∧
      index + newer + 1 = w.buffer.nextIndex ∧ w.buffer.log[index]? = some m) ∧
    ∀ r ∈ w.readers,
      r.opened + r.taken ≤ w.buffer.nextIndex ∧
      r.cursor.remaining w.buffer = w.buffer.nextIndex - (r.opened + r.taken) ∧
      ((r.cursor.tryRead w.buffer).1 = true ↔ r.opened + r.taken < w.buffer.nextIndex ∧
        w.buffer.nextIndex - (r.opened + r.taken) ≠ 0xffffffffffffffff) ∧
      ((r.cursor.tryRead w.buffer).1 = true → (r.cursor.tryRead w.buffer).2.index = r.opened + r.taken) ∧
      (0 < r.taken → r.cursor.index = r.opened + r.taken - 1 ∧
        ∀ m newer spent asked, Age w (r.opened + r.taken - 1) m newer spent asked →
          newer + 1 ≤ capacity → m.bytes.length + spent + asked ≤ size →
          (r.cursor.data w.buffer).item.size = m.bytes.length ∧
          (r.cursor.data w.buffer).size = UInt32.ofNat m.bytes.length ∧
          (r.cursor.data w.buffer).type = m.type ∧
          ∀ i (hi : i < m.bytes.length), (r.cursor.data w.buffer).get i = m.bytes[i]) := by
  obtain ⟨h, hbegun⟩ := inv_run (inv_start capacity hsize items bytes) hrun
    (by simpa [World.begun, start] using hscopes)
  have hn : w.buffer.nextIndex < 0x10000000000000000 := by
    have hpub := published_le w.scopes
    have hnext := h.next
    simp only [World.begun] at hbegun
    omega
  refine ⟨?_, ?_⟩
  · intro index hi
    rw [h.next] at hi
    obtain ⟨later, record, earlier, m, he, hr, hindex, hp, hm⟩ := age_of_lt w.scopes hi
    refine ⟨m, _, _, _, ⟨later, record, earlier, he, hr, hindex, rfl, rfl, rfl⟩, ?_, ?_⟩
    · rw [h.next]
      omega
    · rw [h.logged]
      exact hm
  · intro r hr
    obtain ⟨hcursor, hle⟩ := h.readers r hr
    have hread := Cursor.tryRead_eq hn hle
    refine ⟨hle, ?_, ?_, ?_, ?_⟩
    · rw [hcursor]
      exact Cursor.remaining_eq hn hle
    · rw [hcursor, hread]
      split <;> simp_all
    · rw [hcursor, hread]
      split <;> simp_all
    · intro ht
      have hindex : r.cursor.index = r.opened + r.taken - 1 := by
        rw [hcursor]
        exact subWord_exact (by omega) (by omega)
      refine ⟨hindex, ?_⟩
      intro m newer spent asked ha hslots hfit
      obtain ⟨position, hitem, hsafe⟩ := h.entries _ _ _ _ _ ha hslots
      have hbytes := (slice_eq_iff _ _ _).mp (hsafe hfit).1
      have hdata : (r.cursor.data w.buffer).item = ⟨m.bytes.length, m.type, position⟩ := by
        rw [← hitem, ← hindex, ← h.capacity_eq]
        rfl
      refine ⟨by rw [hdata], by simp only [Accessor.size, hdata], by simp only [Accessor.type, hdata], ?_⟩
      intro i hi
      simp only [Accessor.get, hdata]
      exact hbytes i hi

/-- Three entries in 12 bytes and two slots. The second ends two bytes before the
end of the memory, so the third starts over at zero, in the slot and on the bytes
of the first; a reader has read two. -/
def wrapping : List Event :=
  [.openCursor, .writeScope 6 7, .write 0 [1, 2, 3, 4, 5, 6], .commit 6, .destroy, .tryRead 0,
    .writeScope 4 8, .write 0 [7, 8, 9, 10], .commit 4, .destroy, .tryRead 0,
    .writeScope 3 9, .write 0 [11, 12], .commit 2, .destroy]

theorem fifo_log_wrapping : ∃ w r, run step (start 2 12 (fun _ => ⟨0, 0, 0⟩) (fun _ => 0)) wrapping = some w ∧
    r ∈ w.readers ∧ r.opened = 0 ∧ r.taken = 2 ∧ r.cursor.remaining w.buffer = 1 ∧
    (r.cursor.data w.buffer).item.size = 4 ∧ (r.cursor.data w.buffer).type = 8 ∧
    ∀ i (hi : i < 4), (r.cursor.data w.buffer).get i = [7, 8, 9, 10][i] := by
  have hrun : (run step (start 2 12 (fun _ => ⟨0, 0, 0⟩) (fun _ => 0)) wrapping).map
      (fun w => (w.readers, w.scopes, w.live, w.buffer.nextIndex)) =
      some ([⟨⟨1⟩, 0, 2⟩], [⟨3, 2, some ⟨9, [11, 12]⟩⟩, ⟨4, 4, some ⟨8, [7, 8, 9, 10]⟩⟩,
        ⟨6, 6, some ⟨7, [1, 2, 3, 4, 5, 6]⟩⟩], none, 3) := by
    rfl
  obtain ⟨w, hw, hfields⟩ := Option.map_eq_some_iff.mp hrun
  simp only [Prod.mk.injEq] at hfields
  obtain ⟨hreaders, hscopes, hlive, hnext⟩ := hfields
  have hr : (⟨⟨1⟩, 0, 2⟩ : Reader) ∈ w.readers := by
    rw [hreaders]
    exact List.mem_singleton_self _
  obtain ⟨-, hremaining, -, -, hdata⟩ := (fifo_log (by decide) _ _ wrapping w hw (by decide)).2 _ hr
  -- the third entry is newer, used two bytes and asked for three
  have hage : Age w 1 ⟨8, [7, 8, 9, 10]⟩ 1 2 3 := by
    refine ⟨[⟨3, 2, some ⟨9, [11, 12]⟩⟩], ⟨4, 4, some ⟨8, [7, 8, 9, 10]⟩⟩,
      [⟨6, 6, some ⟨7, [1, 2, 3, 4, 5, 6]⟩⟩], hscopes, rfl, rfl, rfl, ?_, ?_⟩
    · simp [World.spent, hlive]
    · simp [World.asked, hlive]
  obtain ⟨hsize, -, htype, hbytes⟩ := (hdata (by decide)).2 _ _ _ _ hage (by decide) (by decide)
  exact ⟨w, _, hw, hr, rfl, rfl, by simp [hremaining, hnext], hsize, htype, hbytes⟩

/-- A scope that commits all it asked for. -/
def wholeWrite (size : Nat) (type : UInt64) : List Event := [.writeScope size type, .commit size, .destroy]

/-- On a free buffer a whole write publishes one entry. -/
theorem run_wholeWrite (h : Inv capacity size w) (hl : w.live = none) {n : Nat} (type : UInt64)
    (hpos : 0 < n) (hfit : n ≤ size) (hnext : w.buffer.nextIndex + 1 < 0x10000000000000000) :
    ∃ w', run step w (wholeWrite n type) = some w' ∧ w'.live = none ∧ w'.readers = w.readers ∧
      w'.buffer.nextIndex = w.buffer.nextIndex + 1 ∧
      ∃ m, m.bytes.length = n ∧ w'.scopes = ⟨n, n, some m⟩ :: w.scopes := by
  have hfree := h.unlocked hl
  have hrequest : n ≤ w.buffer.memory.size := by
    rw [h.size_eq]
    exact hfit
  obtain ⟨span, memory, hg⟩ := CyclicMemoryPool.getWriteSpan_granted hrequest hfree
  obtain ⟨hbounded, hlive⟩ := Span.live_of_getWriteSpan h.bounded hg
  have hzero : span.committed = 0 := by
    obtain ⟨_, _, ⟨_, rfl, _⟩ | ⟨_, rfl, _⟩⟩ := CyclicMemoryPool.getWriteSpan_ok hg <;> rfl
  have hlong := hlive.long
  have hcommit : span.commit memory n =
      .ok ({ span with committed := n }, { memory with offset := memory.offset + n }) := by
    rw [Span.commit_of_live hbounded hlive, if_neg (by omega), hzero, Nat.zero_add]
  have hw : w.buffer.writeScope n type = .ok (⟨span, type⟩, { w.buffer with memory := memory }) := by
    simp only [CyclicBuffer.writeScope, hg]
  let l : Live := ⟨⟨{ span with committed := n }, type⟩, n, n⟩
  let b : CyclicBuffer := { w.buffer with memory := { memory with offset := memory.offset + n } }
  have hreach : max 0 n = n := Nat.max_eq_right (Nat.zero_le n)
  refine ⟨⟨l.scope.destroy b, none, w.readers, l.record b :: w.scopes⟩, ?_, rfl, rfl, ?_,
    l.scope.content b, ?_, ?_⟩
  · simp only [wholeWrite, run, step, hw, Option.bind_some, WriterScope.commit, hcommit, hreach]
    rfl
  · simp only [WriterScope.destroy_nextIndex, l, hpos, ↓reduceIte]
    exact addWord_exact hnext
  · simp [WriterScope.content, l]
  · simp [Live.record, l, hpos]

/-- `count` whole writes of one byte each, starting on a free buffer. -/
theorem run_wholeWrites (h : Inv capacity size w) (hl : w.live = none) (count : Nat) (hfit : 1 ≤ size)
    (hnext : w.buffer.nextIndex + count < 0x10000000000000000) (hbegun : w.begun + count < 0x10000000000000000) :
    ∃ w', run step w (List.replicate count (wholeWrite 1 0)).flatten = some w' ∧
      w'.readers = w.readers ∧ w'.buffer.nextIndex = w.buffer.nextIndex + count := by
  induction count generalizing w with
  | zero => exact ⟨w, rfl, rfl, rfl⟩
  | succ count ih =>
    obtain ⟨t, ht, htl, htr, htn, m, _, hts⟩ := run_wholeWrite h hl 0 (by decide) hfit (by omega)
    have hb : t.begun = w.begun + 1 := by
      simp [World.begun, htl, hl, hts]
    have hi := (inv_run h ht
      (by simp only [wholeWrite, writeScopes, List.countP_cons, List.countP_nil]; simp; omega)).1
    obtain ⟨w', hw', hr', hn'⟩ := ih hi htl (by omega) (by omega)
    refine ⟨w', ?_, hr'.trans htr, by omega⟩
    rw [List.replicate_succ, List.flatten_cons]
    exact run_join ht hw'

theorem writeScopes_wholeWrites (count : Nat) :
    writeScopes (List.replicate count (wholeWrite 1 0)).flatten = count := by
  induction count with
  | zero => rfl
  | succ count ih =>
    rw [List.replicate_succ, List.flatten_cons]
    unfold writeScopes at ih ⊢
    rw [List.countP_append, ih]
    simp only [wholeWrite, List.countP_cons, List.countP_nil]
    simp
    omega

/-- A reader that lags by 2^64 - 1 entries is told there is nothing to read, and
the size of an entry of 2^32 bytes reads as zero. -/
theorem lagging_reader_and_wide_entry :
    (∃ w r, run step (start 1 1 (fun _ => ⟨0, 0, 0⟩) (fun _ => 0))
        (.openCursor :: (List.replicate 0xffffffffffffffff (wholeWrite 1 0)).flatten) = some w ∧
      writeScopes (.openCursor :: (List.replicate 0xffffffffffffffff (wholeWrite 1 0)).flatten) <
        0x10000000000000000 ∧
      r ∈ w.readers ∧ r.opened + r.taken < w.buffer.nextIndex ∧
      (r.cursor.tryRead w.buffer).1 = false) ∧
    (∃ w r m, run step (start 1 0x100000000 (fun _ => ⟨0, 0, 0⟩) (fun _ => 0))
        (.openCursor :: (wholeWrite 0x100000000 0 ++ [.tryRead 0])) = some w ∧
      r ∈ w.readers ∧ r.opened = 0 ∧ r.taken = 1 ∧ Age w 0 m 0 0 0 ∧ m.bytes.length ≤ 0x100000000 ∧
      (r.cursor.data w.buffer).size.toNat ≠ m.bytes.length) := by
  constructor
  · have h : Inv 1 1 (start 1 1 (fun _ => ⟨0, 0, 0⟩) (fun _ => 0)) := inv_start 1 (by decide) _ _
    have hopen : step (start 1 1 (fun _ => ⟨0, 0, 0⟩) (fun _ => 0)) .openCursor =
        some ⟨.new 1 1 (fun _ => ⟨0, 0, 0⟩) (fun _ => 0), none,
          [⟨⟨0xffffffffffffffff⟩, 0, 0⟩], []⟩ := rfl
    have hi := inv_step h hopen (by decide)
    obtain ⟨w, hw, hr, hn⟩ := run_wholeWrites hi rfl 0xffffffffffffffff (by decide) (by decide) (by decide)
    refine ⟨w, ⟨⟨0xffffffffffffffff⟩, 0, 0⟩, ?_, ?_, by rw [hr]; exact List.mem_singleton_self _, ?_, ?_⟩
    · rw [run_cons, hopen, Option.bind_some]
      exact hw
    · have hcount := writeScopes_wholeWrites 0xffffffffffffffff
      unfold writeScopes at hcount ⊢
      rw [List.countP_cons_of_neg (by simp), hcount]
      decide
    · rw [hn]
      decide
    · have hnext : w.buffer.nextIndex = 0xffffffffffffffff := by
        rw [hn]
        decide
      simp only [Cursor.tryRead, hnext]
      decide
  · have h : Inv 1 0x100000000 (start 1 0x100000000 (fun _ => ⟨0, 0, 0⟩) (fun _ => 0)) :=
      inv_start 1 (by decide) _ _
    have hopen : step (start 1 0x100000000 (fun _ => ⟨0, 0, 0⟩) (fun _ => 0)) .openCursor =
        some ⟨.new 1 0x100000000 (fun _ => ⟨0, 0, 0⟩) (fun _ => 0), none,
          [⟨⟨0xffffffffffffffff⟩, 0, 0⟩], []⟩ := rfl
    have hi := inv_step h hopen (by decide)
    obtain ⟨t, ht, htl, htr, htn, m, hm, hts⟩ := run_wholeWrite hi rfl 0 (by decide) (Nat.le_refl _) (by decide)
    have hit := (inv_run hi ht (by decide)).1
    have hone : t.buffer.nextIndex = 1 := htn
    have hread : step t (.tryRead 0) = some { t with readers := [⟨⟨0⟩, 0, 1⟩] } := by
      have hc : (⟨0xffffffffffffffff⟩ : Cursor).tryRead t.buffer = (true, ⟨0⟩) := by
        simp only [Cursor.tryRead, hone]
        decide
      simp only [step, htr, List.getElem?_cons_zero, hc, List.set_cons_zero]
    have hage : Age t 0 m 0 0 0 := by
      refine ⟨[], ⟨0x100000000, 0x100000000, some m⟩, [], hts, rfl, rfl, rfl, ?_, ?_⟩
      · simp [World.spent, htl]
      · simp [World.asked, htl]
    refine ⟨{ t with readers := [⟨⟨0⟩, 0, 1⟩] }, ⟨⟨0⟩, 0, 1⟩, m, ?_,
      List.mem_singleton_self _, rfl, rfl, hage,
      by omega, ?_⟩
    · rw [run_cons, hopen, Option.bind_some, run_append, ht, Option.bind_some, run_cons, hread]
      rfl
    · obtain ⟨position, hitem, _⟩ := hit.entries _ _ _ _ _ hage (by decide)
      have hsize : ((⟨0⟩ : Cursor).data t.buffer).item.size = 0x100000000 := by
        have hcapacity := hit.capacity_eq
        simp only [Cursor.data, hcapacity]
        rw [hitem]
        exact hm
      simp only [Accessor.size]
      rw [hm]
      simp only [Cursor.data] at hsize ⊢
      rw [hsize]
      decide

end BufferLog
