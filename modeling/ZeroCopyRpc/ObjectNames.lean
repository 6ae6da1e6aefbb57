import Mathlib.Data.Set.Function
import ZeroCopyRpc.SharedMemoryServer

/-!
# The names of the operating system's objects

Names are put together from the channel, the topic, the process id and the slot
with dots in between. Server and clients build them apart from each other and
meet at the same object only if the names are equal, so two different objects
must not get one name. Semaphores have a namespace of their own; queues and
segments share one.
-/
namespace ObjectNames

def dot : UInt8 := 46

def digit (n : Nat) : UInt8 := UInt8.ofNat (48 + n % 10)

/-- A number as the stream writes it. -/
def decimal (n : Nat) : List UInt8 := if n < 10 then [digit n] else decimal (n / 10) ++ [digit n]

/-- `.buffer` and `.sem` without the dot. -/
def bufferSuffix : List UInt8 := [98, 117, 102, 102, 101, 114]
def semSuffix : List UInt8 := [115, 101, 109]

/-- `TopicService::ShmName` and the one of the client's topic. -/
def shmName (channelName topicName : TopicName) : TopicName :=
  channelName ++ dot :: topicName ++ dot :: bufferSuffix

/-- `ClientQueueName`, and the name that `GetClient` opens. -/
def clientQueueName (channelName : TopicName) (pid : Nat) : TopicName := channelName ++ dot :: decimal pid

/-- `GetSubscriptionSemaphoreName` and the cursor's `SemaphoreName`, with the slash of `FormatName`. -/
def semaphoreName (channelName topicName : TopicName) (pid : Nat) (index : UInt8) : TopicName :=
  47 :: (channelName ++ dot :: topicName ++ dot :: decimal pid ++ dot :: decimal index.toNat ++ dot :: semSuffix)

/-- The system reads a name up to the first zero; these have none. -/
abbrev CString := { bytes : TopicName // (0 : UInt8) ∉ bytes }

inductive Object where
  | serverQueue (channel : CString)
  | clientQueue (channel : CString) (pid : Nat)
  | buffer (channel topic : CString)
  | semaphore (channel topic : CString) (pid : Nat) (index : UInt8)
  deriving DecidableEq

inductive Namespace where
  | memory | semaphores
  deriving DecidableEq

namespace Object

def channel : Object → CString
  | .serverQueue channel => channel
  | .clientQueue channel _ => channel
  | .buffer channel _ => channel
  | .semaphore channel _ _ _ => channel

def name : Object → Namespace × TopicName
  | .serverQueue channel => (.memory, channel.val)
  | .clientQueue channel pid => (.memory, clientQueueName channel.val pid)
  | .buffer channel topic => (.memory, shmName channel.val topic.val)
  | .semaphore channel topic pid index => (.semaphores, semaphoreName channel.val topic.val pid index)

end Object

section Decimal

theorem digit_toNat (n : Nat) : (digit n).toNat = 48 + n % 10 := by
  rw [digit, UInt8.toNat_ofNat']
  omega

theorem decimal_digits (n : Nat) : ∀ b ∈ decimal n, 48 ≤ b.toNat ∧ b.toNat < 58 := by
  induction n using decimal.induct with
  | case1 n hn =>
    intro b hb
    rw [decimal, if_pos hn, List.mem_singleton] at hb
    rw [hb, digit_toNat]
    omega
  | case2 n hn ih =>
    intro b hb
    rw [decimal, if_neg hn, List.mem_append, List.mem_singleton] at hb
    rcases hb with hb | rfl
    · exact ih b hb
    · rw [digit_toNat]
      omega

theorem dot_not_mem_decimal (n : Nat) : dot ∉ decimal n := by
  intro hmem
  have hdigit := (decimal_digits n dot hmem).1
  exact absurd hdigit (by decide)

/-- The number that digits stand for. -/
def value (digits : List UInt8) : Nat := digits.foldl (fun v b => v * 10 + (b.toNat - 48)) 0

theorem value_decimal (n : Nat) : value (decimal n) = n := by
  induction n using decimal.induct with
  | case1 n hn =>
    rw [decimal, if_pos hn, value, List.foldl_cons, List.foldl_nil, digit_toNat]
    omega
  | case2 n hn ih =>
    rw [value] at ih
    rw [decimal, if_neg hn, value, List.foldl_append, ih, List.foldl_cons, List.foldl_nil, digit_toNat]
    omega

theorem decimal_injective : Function.Injective decimal := by
  intro m n h
  rw [← value_decimal m, h, value_decimal]

end Decimal

section Split

variable {u v s t : List UInt8}

/-- The last dot is found again. -/
theorem split_last (hs : dot ∉ s) (ht : dot ∉ t) : u ++ dot :: s = v ++ dot :: t ↔ u = v ∧ s = t := by
  constructor
  · intro h
    rcases List.append_eq_append_iff.mp h with ⟨a, hv, htail⟩ | ⟨a, hu, htail⟩
    · cases a with
      | nil =>
        rw [List.append_nil] at hv
        exact ⟨hv.symm, (List.cons.inj htail).2⟩
      | cons x a =>
        have hmem : dot ∈ s := by
          rw [(List.cons.inj htail).2]
          exact List.mem_append_right _ List.mem_cons_self
        exact absurd hmem hs
    · cases a with
      | nil =>
        rw [List.append_nil] at hu
        exact ⟨hu, (List.cons.inj htail).2.symm⟩
      | cons x a =>
        have hmem : dot ∈ t := by
          rw [(List.cons.inj htail).2]
          exact List.mem_append_right _ List.mem_cons_self
        exact absurd hmem ht
  · rintro ⟨rfl, rfl⟩
    rfl

/-- The first dot is found again unless one front is the other with a dot behind it. -/
theorem split_first (h : u ++ dot :: s = v ++ dot :: t) :
    (u = v ∧ s = t) ∨ u ++ [dot] <+: v ∨ v ++ [dot] <+: u := by
  rcases List.append_eq_append_iff.mp h with ⟨a, hv, htail⟩ | ⟨a, hu, htail⟩
  · cases a with
    | nil =>
      rw [List.append_nil] at hv
      exact Or.inl ⟨hv.symm, (List.cons.inj htail).2⟩
    | cons x a =>
      obtain ⟨rfl, -⟩ := List.cons.inj htail
      exact Or.inr (Or.inl ⟨a, by rw [hv, List.append_assoc, List.singleton_append]⟩)
  · cases a with
    | nil =>
      rw [List.append_nil] at hu
      exact Or.inl ⟨hu, (List.cons.inj htail).2.symm⟩
    | cons x a =>
      obtain ⟨rfl, -⟩ := List.cons.inj htail
      exact Or.inr (Or.inr ⟨a, by rw [hu, List.append_assoc, List.singleton_append]⟩)

end Split

section Kinds

variable {c c' t t' : TopicName} {p p' : Nat} {i i' : UInt8}

theorem bufferSuffix_no_dot : dot ∉ bufferSuffix := by decide

theorem semSuffix_no_dot : dot ∉ semSuffix := by decide

theorem clientQueueName_inj : clientQueueName c p = clientQueueName c' p' ↔ c = c' ∧ p = p' := by
  rw [clientQueueName, clientQueueName, split_last (dot_not_mem_decimal p) (dot_not_mem_decimal p'),
    decimal_injective.eq_iff]

theorem shmName_inj : shmName c t = shmName c' t' ↔ c ++ dot :: t = c' ++ dot :: t' := by
  rw [shmName, shmName, split_last bufferSuffix_no_dot bufferSuffix_no_dot]
  exact and_iff_left rfl

theorem semaphoreName_inj : semaphoreName c t p i = semaphoreName c' t' p' i' ↔
    c ++ dot :: t = c' ++ dot :: t' ∧ p = p' ∧ i = i' := by
  rw [semaphoreName, semaphoreName, List.cons.injEq, split_last semSuffix_no_dot semSuffix_no_dot,
    split_last (dot_not_mem_decimal _) (dot_not_mem_decimal _),
    split_last (dot_not_mem_decimal p) (dot_not_mem_decimal p'),
    decimal_injective.eq_iff, decimal_injective.eq_iff, UInt8.toNat_inj]
  tauto

theorem clientQueueName_ne_shmName : clientQueueName c p ≠ shmName c' t' := by
  intro h
  rw [clientQueueName, shmName, split_last (dot_not_mem_decimal p) bufferSuffix_no_dot] at h
  have hletter : (98 : UInt8) ∈ decimal p := by
    rw [h.2]
    exact List.mem_cons_self
  exact absurd (decimal_digits p 98 hletter).2 (by decide)

end Kinds

/-- No name of a channel is the name of another one with a dot behind it. -/
def Separate (channels : Set CString) : Prop := ∀ c ∈ channels, ∀ c' ∈ channels, ¬ c.val ++ [dot] <+: c'.val

section Separate

variable {channels : Set CString} {c c' : CString} {s t : TopicName}

theorem same_channel (h : Separate channels) (hc : c ∈ channels) (hc' : c' ∈ channels)
    (heq : c.val ++ dot :: s = c'.val ++ dot :: t) : c = c' ∧ s = t := by
  rcases split_first heq with ⟨hsame, htail⟩ | hprefix | hprefix
  · exact ⟨Subtype.ext hsame, htail⟩
  · exact absurd hprefix (h c hc c' hc')
  · exact absurd hprefix (h c' hc' c hc)

theorem not_own_name (h : Separate channels) (hc : c ∈ channels) (hc' : c' ∈ channels) :
    c'.val ≠ c.val ++ dot :: s := by
  intro heq
  apply h c hc c' hc'
  exact ⟨s, by rw [heq, List.append_assoc, List.singleton_append]⟩

theorem not_own_shmName (h : Separate channels) (hc : c ∈ channels) (hc' : c' ∈ channels) :
    c'.val ≠ shmName c.val s := by
  rw [shmName, List.append_assoc, List.cons_append]
  exact not_own_name h hc hc'

theorem name_injective (h : Separate channels) : Set.InjOn Object.name {o | o.channel ∈ channels} := by
  intro o ho o' ho' heq
  obtain ⟨hkind, hname⟩ := Prod.mk.inj heq
  cases o with
  | serverQueue c =>
    cases o' with
    | serverQueue c' => exact congrArg Object.serverQueue (Subtype.ext hname)
    | clientQueue c' p' => exact absurd hname (not_own_name h ho' ho)
    | buffer c' t' => exact absurd hname (not_own_shmName h ho' ho)
    | semaphore c' t' p' i' => cases hkind
  | clientQueue c p =>
    cases o' with
    | serverQueue c' => exact absurd hname.symm (not_own_name h ho ho')
    | clientQueue c' p' =>
      obtain ⟨hchannel, rfl⟩ := clientQueueName_inj.mp hname
      obtain rfl := Subtype.ext hchannel
      rfl
    | buffer c' t' => exact absurd hname clientQueueName_ne_shmName
    | semaphore c' t' p' i' => cases hkind
  | buffer c t =>
    cases o' with
    | serverQueue c' => exact absurd hname.symm (not_own_shmName h ho ho')
    | clientQueue c' p' => exact absurd hname.symm clientQueueName_ne_shmName
    | buffer c' t' =>
      obtain ⟨rfl, htopic⟩ := same_channel h ho ho' (shmName_inj.mp hname)
      obtain rfl := Subtype.ext htopic
      rfl
    | semaphore c' t' p' i' => cases hkind
  | semaphore c t p i =>
    cases o' with
    | semaphore c' t' p' i' =>
      obtain ⟨htopics, rfl, rfl⟩ := semaphoreName_inj.mp hname
      obtain ⟨rfl, htopic⟩ := same_channel h ho ho' htopics
      obtain rfl := Subtype.ext htopic
      rfl
    | _ => cases hkind

end Separate

/-- Different objects of some channels have different names, whatever their topics, processes and
slots, if and only if no channel's name is another one's with a dot and more behind it. -/
theorem names_injective_iff (channels : Set CString) :
    Set.InjOn Object.name {o | o.channel ∈ channels} ↔ Separate channels := by
  constructor
  · rintro hinj c hc c' hc' ⟨s, hs⟩
    -- the topic that the shorter name needs to get the longer one's segment
    have hzero : (0 : UInt8) ∉ s ++ [dot] := by
      intro hmem
      rcases List.mem_append.mp hmem with hmem | hmem
      · apply c'.property
        rw [← hs]
        exact List.mem_append_right _ hmem
      · exact absurd hmem (by decide)
    let topic : CString := ⟨s ++ [dot], hzero⟩
    let empty : CString := ⟨[], List.not_mem_nil⟩
    have hshared : shmName c'.val empty.val = shmName c.val topic.val := by
      rw [shmName_inj, ← hs]
      simp only [topic, empty, List.append_assoc, List.cons_append, List.nil_append]
    have heq : Object.buffer c' empty = Object.buffer c topic :=
      hinj hc' hc (congrArg (Prod.mk Namespace.memory) hshared)
    obtain ⟨-, hnil⟩ := Object.buffer.inj heq
    exact List.append_ne_nil_of_right_ne_nil s (List.cons_ne_nil dot []) (congrArg Subtype.val hnil).symm
  · exact name_injective

end ObjectNames
