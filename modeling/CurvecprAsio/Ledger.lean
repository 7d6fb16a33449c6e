import CurvecprAsio.Wakeup

set_option autoImplicit false

/- Every element that was ever put into the receive queue, and what became of it:
the queue holds exactly those that do not have both bits set. -/
namespace CurvecprAsio

open SearchTree Sweep Transition

/-- An element that `handle_recvmarkq_put` allocated: its number, whether
`pending_eof_` was set then, and its status, also once it has been deleted. -/
structure Entry where
  pointer : Nat
  late : Bool
  element : BlockStatus
  deriving DecidableEq, Repr

namespace Entry

abbrev block (entry : Entry) : Block := entry.element.block

def queued (entry : Entry) : Bool := !entry.element.done

/-- The order of `recvmarkq_`. -/
def below (first second : Entry) : Bool := blockRangeCompare first.element second.element

def acknowledge (start stop : Nat) (entry : Entry) : Entry :=
  if entry.block.inRange start stop then
    { entry with element := { entry.element with acknowledged := true } }
  else entry

def distribute (entry : Entry) : Entry :=
  { entry with element := { entry.element with distributed := true } }

/-- The same element later: a bit that was set stays set. -/
structure Becomes (entry later : Entry) : Prop where
  pointer : later.pointer = entry.pointer
  late : later.late = entry.late
  block : later.block = entry.block
  distributed : entry.element.distributed = true → later.element.distributed = true
  acknowledged : entry.element.acknowledged = true → later.element.acknowledged = true

theorem below_weakOrder : WeakOrder below where
  asymm := fun first second => blockRangeCompare_weakOrder.asymm first.element second.element
  trans := fun first second third =>
    blockRangeCompare_weakOrder.trans first.element second.element third.element

theorem Becomes.refl (entry : Entry) : entry.Becomes entry := ⟨rfl, rfl, rfl, id, id⟩

/-- What has been deleted does not come back. -/
theorem Becomes.queued {entry later : Entry} (becomes : entry.Becomes later)
    (queued : later.queued = true) : entry.queued = true := by
  simp only [Entry.queued, BlockStatus.done, Bool.not_eq_true', Bool.and_eq_false_iff] at queued ⊢
  cases queued with
  | inl open_ =>
      apply Or.inl
      by_contra distributed
      rw [becomes.distributed (by simpa using distributed)] at open_
      cases open_
  | inr open_ =>
      apply Or.inr
      by_contra acknowledged
      rw [becomes.acknowledged (by simpa using acknowledged)] at open_
      cases open_

theorem becomes_acknowledge (start stop : Nat) (entry : Entry) :
    entry.Becomes (entry.acknowledge start stop) := by
  unfold acknowledge
  split
  · exact ⟨rfl, rfl, rfl, id, fun _ => rfl⟩
  · exact .refl entry

/-- The round of the source's loop keeps an element unless it gets its second bit. -/
theorem acknowledge_queued {entry : Entry} (start stop : Nat) (queued : entry.queued = true) :
    Session.acknowledge start stop entry.element =
      if (entry.acknowledge start stop).queued then
        some (entry.acknowledge start stop).element
      else none := by
  simp only [Session.acknowledge, acknowledge]
  split
  · simp only [Entry.queued]
    split
    · rename_i finished
      simp only [finished, Bool.not_true, Bool.false_eq_true, ↓reduceIte]
    · rename_i open_
      simp only [open_, Bool.not_false, ↓reduceIte]
  · rfl

theorem becomes_distribute (entry : Entry) : entry.Becomes entry.distribute :=
  ⟨rfl, rfl, rfl, fun _ => rfl, id⟩

end Entry

/-- The loop of `session::read` over all entries. Those that were deleted before
are not there for it, and what it deletes keeps its entry. -/
def markPassed : List Entry → ReadPass → List Entry
  | [], _ => []
  | entry :: rest, pass =>
      if entry.queued then
        if entry.block.offset ≤ pass.distributed then
          let consumed := pass.consume entry.block
          if consumed.2 then entry :: rest
          else entry.distribute :: markPassed rest (consumed.1.distribute entry.block)
        else entry :: rest
      else entry :: markPassed rest pass

/-- A session and every element that was put into its receive queue, in its order. -/
structure Ledger where
  session : Session
  entries : List Entry := []
  deriving DecidableEq, Repr

inductive LedgerAction where
  | put (block : Block)
  | removeRange (start stop : Nat)
  | read (buffer : Buffer)
  | close

namespace Ledger

/-- The entry of a block that is put now. -/
def entry (ledger : Ledger) (block : Block) : Entry where
  pointer := ledger.entries.length
  late := ledger.session.pendingEof
  element := { block := block, distributed := ledger.session.pendingEof }

def put (ledger : Ledger) (block : Block) : Ledger where
  session := (ledger.session.handleRecvmarkqPut block).session
  entries :=
    if (ledger.session.handleRecvmarkqPut block).ret = 0 then
      ledger.entries.orderedInsert (fun first second => first.below second) (ledger.entry block)
    else ledger.entries

def removeRange (ledger : Ledger) (start stop : Nat) : Ledger where
  session := ledger.session.handleRecvmarkqRemoveRange start stop
  entries := ledger.entries.map (Entry.acknowledge start stop)

def read (ledger : Ledger) (buffer : Buffer) : Ledger where
  session := (ledger.session.read buffer).session
  entries :=
    if buffer.length = 0 then ledger.entries
    else markPassed ledger.entries (ledger.session.readEntry buffer)

/-- A close sets `pending_eof_`. -/
def close (ledger : Ledger) : Ledger := { ledger with session := ledger.session.closing }

def next (ledger : Ledger) : LedgerAction → Ledger
  | .put block => ledger.put block
  | .removeRange start stop => ledger.removeRange start stop
  | .read buffer => ledger.read buffer
  | .close => ledger.close

end Ledger

/-- The elements that have not been deleted. -/
def queuedElements (entries : List Entry) : List BlockStatus :=
  (entries.filter Entry.queued).map Entry.element

theorem queuedElements_cons (entry : Entry) (rest : List Entry) :
    queuedElements (entry :: rest) =
      if entry.queued then entry.element :: queuedElements rest else queuedElements rest := by
  simp only [queuedElements, List.filter_cons]
  split <;> rfl

theorem mem_queuedElements {entries : List Entry} {element : BlockStatus} :
    element ∈ queuedElements entries ↔
      ∃ entry ∈ entries, entry.queued = true ∧ entry.element = element := by
  simp [queuedElements, and_assoc]

/-- An acknowledgement deletes the elements that it gives their second bit. -/
theorem queuedElements_acknowledge (start stop : Nat) (entries : List Entry) :
    queuedElements (entries.map (Entry.acknowledge start stop)) =
      (queuedElements entries).filterMap (Session.acknowledge start stop) := by
  induction entries with
  | nil => rfl
  | cons entry rest ih =>
      rw [List.map_cons, queuedElements_cons, queuedElements_cons, ih]
      by_cases queued : entry.queued = true
      · have round := entry.acknowledge_queued start stop queued
        by_cases stays : (entry.acknowledge start stop).queued = true
        · rw [if_pos stays] at round ⊢
          rw [if_pos queued, List.filterMap_cons_some round]
        · rw [if_neg stays] at round ⊢
          rw [if_pos queued, List.filterMap_cons_none round]
      · have gone : ¬ (entry.acknowledge start stop).queued = true :=
          fun stays => queued ((entry.becomes_acknowledge start stop).queued stays)
        rw [if_neg gone, if_neg queued]

/-- A read deletes the elements that it gives their second bit. -/
theorem queuedElements_markPassed (entries : List Entry) (pass : ReadPass) :
    queuedElements (markPassed entries pass) = (readLoop (queuedElements entries) pass).1 := by
  induction entries generalizing pass with
  | nil => rfl
  | cons entry rest ih =>
      rw [queuedElements_cons]
      by_cases queued : entry.queued = true
      · by_cases reached : entry.block.offset ≤ pass.distributed
        · by_cases broke : (pass.consume entry.block).2 = true
          · simp only [markPassed, readLoop, queued, reached, broke, ↓reduceIte,
              queuedElements_cons]
          · have same : entry.distribute.queued =
                !({ entry.element with distributed := true } : BlockStatus).done := rfl
            simp only [markPassed, readLoop, queued, reached, broke, ↓reduceIte,
              queuedElements_cons, ih, same, Bool.false_eq_true]
            cases ({ entry.element with distributed := true } : BlockStatus).done <;> rfl
        · simp only [markPassed, readLoop, queued, reached, ↓reduceIte, queuedElements_cons]
      · simp only [markPassed, queued, Bool.false_eq_true, ↓reduceIte, queuedElements_cons, ih]

theorem becomes_markPassed (entries : List Entry) (pass : ReadPass) :
    List.Forall₂ Entry.Becomes entries (markPassed entries pass) := by
  induction entries generalizing pass with
  | nil => exact .nil
  | cons entry rest ih =>
      have kept : List.Forall₂ Entry.Becomes (entry :: rest) (entry :: rest) :=
        List.forall₂_same.mpr fun other _ => .refl other
      simp only [markPassed]
      split
      · split
        · split
          · exact kept
          · exact .cons entry.becomes_distribute (ih _)
        · exact kept
      · exact .cons (.refl entry) (ih _)

theorem becomes_acknowledged (start stop : Nat) (entries : List Entry) :
    List.Forall₂ Entry.Becomes entries (entries.map (Entry.acknowledge start stop)) :=
  List.forall₂_map_right_iff.mpr
    (List.forall₂_same.mpr fun entry _ => entry.becomes_acknowledge start stop)

/-- The loop marks an entry only once its cursor is past it. -/
theorem distributed_markPassed (entries : List Entry) (pass : ReadPass)
    (word : pass.distributed < 2 ^ 64)
    (before : ∀ entry ∈ entries, entry.element.distributed = true →
      entry.late = true ∨ entry.block.endOffset ≤ pass.distributed) :
    ∀ entry ∈ markPassed entries pass, entry.element.distributed = true →
      entry.late = true ∨
        entry.block.endOffset ≤ (readLoop (queuedElements entries) pass).2.distributed := by
  have further := le_readLoop (queuedElements entries) pass word
  induction entries generalizing pass with
  | nil => exact before
  | cons first rest ih =>
      have inRest : ∀ entry ∈ rest, entry.element.distributed = true →
          entry.late = true ∨ entry.block.endOffset ≤ pass.distributed :=
        fun entry member => before entry (List.mem_cons_of_mem _ member)
      -- an entry that the loop leaves alone was behind the cursor before
      have left : ∀ entry ∈ first :: rest, entry.element.distributed = true →
          entry.late = true ∨ entry.block.endOffset ≤
            (readLoop (queuedElements (first :: rest)) pass).2.distributed :=
        fun entry member marked =>
          (before entry member marked).imp_right fun behind => Nat.le_trans behind further
      by_cases queued : first.queued = true
      · by_cases reached : first.block.offset ≤ pass.distributed
        · obtain ⟨small, _, _, moves⟩ := ReadPass.consume_limit word reached
          by_cases broke : (pass.consume first.block).2 = true
          · simp only [markPassed, queued, reached, broke, ↓reduceIte]
            exact left
          · have moved := (moves (by simpa using broke)).1
            have onward := le_readLoop (queuedElements rest)
              ((pass.consume first.block).1.distribute first.block) small
            have passed := passed_readLoop (queuedElements rest) word reached
              (by simpa using broke)
            have next := ih ((pass.consume first.block).1.distribute first.block) small (by
              intro entry member marked
              apply (inRest entry member marked).imp_right
              intro behind
              show _ ≤ (pass.consume first.block).1.distributed
              omega) onward
            simp only [markPassed, readLoop, queuedElements_cons, queued, reached, broke,
              ↓reduceIte, Bool.false_eq_true, List.forall_mem_cons]
            exact ⟨fun _ => Or.inr passed.ends, next⟩
        · simp only [markPassed, queued, reached, ↓reduceIte]
          exact left
      · rw [queuedElements_cons, if_neg queued] at further left ⊢
        simp only [markPassed, queued, Bool.false_eq_true, ↓reduceIte, List.forall_mem_cons]
        exact ⟨left first List.mem_cons_self, ih pass word inRest further⟩

section Becomes

variable {entries later : List Entry}

theorem becomes_map {β : Type} (field : Entry → β)
    (same : ∀ entry other : Entry, entry.Becomes other → field other = field entry)
    (becomes : List.Forall₂ Entry.Becomes entries later) :
    later.map field = entries.map field := by
  induction becomes with
  | nil => rfl
  | cons first _ ih => rw [List.map_cons, List.map_cons, same _ _ first, ih]

theorem blocks_becomes (becomes : List.Forall₂ Entry.Becomes entries later) :
    later.map Entry.block = entries.map Entry.block :=
  becomes_map _ (fun _ _ becomes => becomes.block) becomes

theorem ordered_becomes (becomes : List.Forall₂ Entry.Becomes entries later)
    (ordered : Ordered Entry.below entries) : Ordered Entry.below later := by
  have elements : ∀ items : List Entry, Ordered Entry.below items ↔
      Ordered blockRangeCompare (items.map Entry.element) := by
    intro items
    unfold Ordered
    rw [List.pairwise_map]
    exact Iff.rfl
  rw [elements, ordered_iff_blocks, List.map_map] at ordered ⊢
  have blocks := blocks_becomes becomes
  exact blocks ▸ ordered

theorem exists_becomes (becomes : List.Forall₂ Entry.Becomes entries later) :
    ∀ entry ∈ entries, ∃ after ∈ later, entry.Becomes after := by
  induction becomes with
  | nil =>
      intro entry member
      cases member
  | @cons first after rest left becomes _ ih =>
      intro entry member
      cases List.mem_cons.mp member with
      | inl same =>
          rw [same]
          exact ⟨after, List.mem_cons_self, becomes⟩
      | inr inRest =>
          obtain ⟨found, member, becomes⟩ := ih entry inRest
          exact ⟨found, List.mem_cons_of_mem _ member, becomes⟩

end Becomes

/-- Every position below the cursor lies in a block that was accepted. -/
def Ledger.Accepted (ledger : Ledger) (cursor : Nat) : Prop :=
  ∀ position < cursor, ∃ entry ∈ ledger.entries, entry.block.Covers position

/-- What every step keeps. -/
structure LedgerInv (ledger : Ledger) : Prop where
  ordered : Ordered Entry.below ledger.entries
  queue : ledger.session.recvmarkq = queuedElements ledger.entries
  pointers : (ledger.entries.map Entry.pointer).Perm (List.range ledger.entries.length)
  word : ledger.session.recvmarkqDistributed < 2 ^ 64
  behind : ∀ entry ∈ ledger.entries, entry.element.distributed = true →
    entry.late = true ∨ entry.block.endOffset ≤ ledger.session.recvmarkqDistributed
  accepted : ledger.Accepted ledger.session.recvmarkqDistributed

/-- The receive side as it is constructed, and as `do_close` leaves it. -/
structure Session.Cleared (s : Session) : Prop where
  recvmarkq : s.recvmarkq = []
  recvmarkqDistributed : s.recvmarkqDistributed = 0
  recvmarkqReadOffset : s.recvmarkqReadOffset = 0
  pendingEof : s.pendingEof = false

theorem Session.Fresh.cleared {s : Session} (fresh : s.Fresh) : s.Cleared :=
  ⟨fresh.recvmarkq, fresh.recvmarkqDistributed, fresh.recvmarkqReadOffset, fresh.pendingEof⟩

namespace LedgerInv

variable {ledger : Ledger}

theorem initial {session : Session} (cleared : session.Cleared) :
    LedgerInv { session := session } where
  ordered := List.Pairwise.nil
  queue := cleared.recvmarkq
  pointers := List.Perm.refl _
  word := by
    show session.recvmarkqDistributed < 2 ^ 64
    rw [cleared.recvmarkqDistributed]
    exact Nat.two_pow_pos 64
  behind := by
    intro entry member
    cases member
  accepted := by
    intro position below
    rw [cleared.recvmarkqDistributed] at below
    omega

/-- Steps that put nothing keep the entries in their places. -/
theorem becomes (inv : LedgerInv ledger) {later : Ledger}
    (becomes : List.Forall₂ Entry.Becomes ledger.entries later.entries)
    (queue : later.session.recvmarkq = queuedElements later.entries)
    (word : later.session.recvmarkqDistributed < 2 ^ 64)
    (behind : ∀ entry ∈ later.entries, entry.element.distributed = true →
      entry.late = true ∨ entry.block.endOffset ≤ later.session.recvmarkqDistributed)
    (accepted : ledger.Accepted later.session.recvmarkqDistributed) : LedgerInv later where
  ordered := ordered_becomes becomes inv.ordered
  queue := queue
  pointers := by
    rw [becomes_map Entry.pointer (fun _ _ becomes => becomes.pointer) becomes,
      ← becomes.length_eq]
    exact inv.pointers
  word := word
  behind := behind
  accepted := by
    intro position below
    obtain ⟨entry, member, covers⟩ := accepted position below
    obtain ⟨after, inLater, same⟩ := exists_becomes becomes entry member
    rw [← same.block] at covers
    exact ⟨after, inLater, covers⟩

theorem removeRange (inv : LedgerInv ledger) (start stop : Nat) :
    LedgerInv (ledger.removeRange start stop) := by
  have becomes := becomes_acknowledged start stop ledger.entries
  apply inv.becomes becomes
  · show ledger.session.recvmarkq.filterMap (Session.acknowledge start stop) = _
    rw [inv.queue]
    exact (queuedElements_acknowledge start stop ledger.entries).symm
  · exact inv.word
  · intro entry member marked
    obtain ⟨old, isOld, rfl⟩ := List.mem_map.mp member
    have same := old.becomes_acknowledge start stop
    have before : old.element.distributed = true := by
      unfold Entry.acknowledge at marked
      split at marked <;> exact marked
    rw [same.late, same.block]
    exact inv.behind old isOld before
  · exact inv.accepted

theorem close (inv : LedgerInv ledger) : LedgerInv ledger.close :=
  ⟨inv.ordered, inv.queue, inv.pointers, inv.word, inv.behind, inv.accepted⟩

theorem read (inv : LedgerInv ledger) (buffer : Buffer) : LedgerInv (ledger.read buffer) := by
  by_cases empty : buffer.length = 0
  · simp only [Ledger.read, Session.read, empty, ↓reduceIte]
    exact ⟨inv.ordered, inv.queue, inv.pointers, inv.word, inv.behind, inv.accepted⟩
  · have spec := ledger.session.read_spec empty
    have becomes := becomes_markPassed ledger.entries (ledger.session.readEntry buffer)
    have marks := distributed_markPassed ledger.entries (ledger.session.readEntry buffer)
      inv.word inv.behind
    have passed : ledger.session.readPass buffer =
        readLoop (queuedElements ledger.entries) (ledger.session.readEntry buffer) := by
      rw [← inv.queue]
      rfl
    have entries : (ledger.read buffer).entries =
        markPassed ledger.entries (ledger.session.readEntry buffer) := by
      simp only [Ledger.read, empty, ↓reduceIte]
    have cursor : (ledger.read buffer).session.recvmarkqDistributed =
        (readLoop (queuedElements ledger.entries)
          (ledger.session.readEntry buffer)).2.distributed := by
      rw [← passed]
      exact spec.distributed
    rw [← entries] at becomes marks
    rw [← cursor] at marks
    apply inv.becomes becomes
    · show (ledger.session.read buffer).session.recvmarkq = _
      rw [spec.queue, passed, entries, queuedElements_markPassed]
    · rw [cursor]
      exact readLoop_word _ _ inv.word
    · exact marks
    · intro position below
      by_cases before : position < ledger.session.recvmarkqDistributed
      · exact inv.accepted position before
      · have swept := (readLoop_sweep (queuedElements ledger.entries)
          (ledger.session.readEntry buffer) inv.word).1
        rw [cursor, swept] at below
        obtain ⟨element, queued, begins, ends⟩ := covered_sweep BlockStatus.offset
          BlockStatus.endOffset (queuedElements ledger.entries)
          ledger.session.recvmarkqDistributed position (by omega)
          (Nat.lt_of_lt_of_le below (Nat.min_le_right _ _))
        obtain ⟨entry, member, _, rfl⟩ := mem_queuedElements.mp queued
        have exact_ := entry.block.endOffset_le
        exact ⟨entry, member, begins, Nat.lt_of_lt_of_le ends exact_⟩

theorem put (inv : LedgerInv ledger) (block : Block) : LedgerInv (ledger.put block) := by
  unfold Ledger.put Session.handleRecvmarkqPut
  split
  · exact ⟨inv.ordered, inv.queue, inv.pointers, inv.word, inv.behind, inv.accepted⟩
  · have perm := List.perm_orderedInsert (fun first second : Entry => first.below second = true)
      (ledger.entry block) ledger.entries
    have queued : (ledger.entry block).queued = true := by
      simp only [Entry.queued, Ledger.entry, BlockStatus.done, Bool.and_false, Bool.not_false]
    simp only [↓reduceIte]
    constructor
    · exact ordered_orderedInsert Entry.below_weakOrder _ inv.ordered
    · have inserted := filter_orderedInsert Entry.below_weakOrder Entry.queued
        (ledger.entry block) inv.ordered
      rw [if_pos queued] at inserted
      show ledger.session.recvmarkq.orderedInsert _ (ledger.entry block).element = _
      rw [queuedElements, inserted, inv.queue]
      symm
      apply List.map_orderedInsert
      · intro other _
        exact Iff.rfl
      · intro other _
        exact Iff.rfl
    · have longer : (ledger.entries.orderedInsert (fun first second => first.below second)
          (ledger.entry block)).length = ledger.entries.length + 1 := perm.length_eq
      rw [longer, List.range_succ]
      have numbered := (perm.map Entry.pointer).trans (inv.pointers.cons ledger.entries.length)
      exact numbered.trans (List.perm_append_singleton _ _).symm
    · exact inv.word
    · intro entry member marked
      cases List.mem_cons.mp (perm.mem_iff.mp member) with
      | inl new =>
          rw [new] at marked ⊢
          exact Or.inl marked
      | inr old => exact inv.behind entry old marked
    · intro position below
      obtain ⟨entry, member, covers⟩ := inv.accepted position below
      exact ⟨entry, perm.mem_iff.mpr (List.mem_cons_of_mem _ member), covers⟩

theorem next (inv : LedgerInv ledger) (action : LedgerAction) : LedgerInv (ledger.next action) := by
  cases action with
  | put block => exact inv.put block
  | removeRange start stop => exact inv.removeRange start stop
  | read buffer => exact inv.read buffer
  | close => exact inv.close

theorem run (inv : LedgerInv ledger) (actions : List LedgerAction) :
    LedgerInv (actions.foldl Ledger.next ledger) := by
  induction actions generalizing ledger with
  | nil => exact inv
  | cons action rest ih => exact ih (inv.next action)

end LedgerInv

/-- The receive queue and its cursor against everything that was put. An element
is queued exactly as long as it does not have both bits. -/
structure Ledger.Represents (ledger : Ledger) : Prop where
  sorted : Ordered blockRangeCompare ledger.session.recvmarkq
  queue : ledger.session.recvmarkq = queuedElements ledger.entries
  undone : ∀ element ∈ ledger.session.recvmarkq, element.done = false
  distinct : (ledger.entries.map Entry.pointer).Nodup
  behind : ∀ entry ∈ ledger.entries, entry.block.offset + entry.block.dataLen < 2 ^ 64 →
    entry.element.distributed = true → entry.late = true ∨
      entry.block.offset + entry.block.dataLen ≤ ledger.session.recvmarkqDistributed
  undistributed : ∀ entry ∈ ledger.entries, entry.element.distributed = false →
    entry.element ∈ ledger.session.recvmarkq
  accepted : ledger.Accepted ledger.session.recvmarkqDistributed

/-- The cursor does not go back, and every element keeps the bits it has. -/
structure Ledger.Proceeds (ledger later : Ledger) : Prop where
  cursor : ledger.session.recvmarkqDistributed ≤ later.session.recvmarkqDistributed
  kept : ∀ entry ∈ ledger.entries, ∃ after ∈ later.entries, entry.Becomes after

namespace LedgerInv

variable {ledger : Ledger}

theorem represents (inv : LedgerInv ledger) : ledger.Represents where
  sorted := by
    rw [inv.queue]
    apply List.pairwise_map.mpr
    exact List.Pairwise.filter _ inv.ordered
  queue := inv.queue
  undone := by
    intro element member
    rw [inv.queue] at member
    obtain ⟨entry, _, queued, rfl⟩ := mem_queuedElements.mp member
    simpa only [Entry.queued, Bool.not_eq_true'] using queued
  distinct := inv.pointers.nodup_iff.mpr List.nodup_range
  behind := by
    intro entry member fits marked
    rw [← entry.block.endOffset_eq fits]
    exact inv.behind entry member marked
  undistributed := by
    intro entry member unmarked
    rw [inv.queue]
    apply mem_queuedElements.mpr
    refine ⟨entry, member, ?_, rfl⟩
    simp only [Entry.queued, BlockStatus.done, unmarked, Bool.false_and, Bool.not_false]
  accepted := inv.accepted

theorem proceeds (inv : LedgerInv ledger) (action : LedgerAction) :
    ledger.Proceeds (ledger.next action) := by
  have same : ∀ entry ∈ ledger.entries, ∃ after ∈ ledger.entries, entry.Becomes after :=
    fun entry member => ⟨entry, member, .refl entry⟩
  cases action with
  | put block =>
      simp only [Ledger.next, Ledger.put, Session.handleRecvmarkqPut]
      split
      · exact ⟨Nat.le_refl _, same⟩
      · refine ⟨Nat.le_refl _, ?_⟩
        intro entry member
        exact ⟨entry, (List.mem_orderedInsert _).mpr (Or.inr member), .refl entry⟩
  | removeRange start stop =>
      exact ⟨Nat.le_refl _, exists_becomes (becomes_acknowledged start stop ledger.entries)⟩
  | read buffer =>
      simp only [Ledger.next, Ledger.read]
      split
      · rename_i empty
        simp only [Session.read, empty, ↓reduceIte]
        exact ⟨Nat.le_refl _, same⟩
      · rename_i nonempty
        refine ⟨?_, exists_becomes (becomes_markPassed _ _)⟩
        rw [(ledger.session.read_spec nonempty).distributed]
        exact le_readLoop _ (ledger.session.readEntry buffer) inv.word
  | close => exact ⟨Nat.le_refl _, same⟩

end LedgerInv

/-- After any puts, acknowledgements and reads, with the end of the stream set
by a read or a close at any point, the receive queue represents what was put, and
so it goes on. -/
theorem recvmarkq_represents {session : Session} (cleared : session.Cleared)
    (actions : List LedgerAction) :
    let ledger := actions.foldl Ledger.next { session := session }
    ledger.Represents ∧ ∀ action, ledger.Proceeds (ledger.next action) := by
  intro ledger
  have inv : LedgerInv ledger := (LedgerInv.initial cleared).run actions
  exact ⟨inv.represents, inv.proceeds⟩

/-- A block that was read and acknowledged is gone, one that was half read stays,
and a late one only waits to be acknowledged. -/
theorem recvmarkq_represents_three_blocks :
    let whole : Block := { offset := 0, data := [1, 2] }
    let half : Block := { offset := 1, data := [2, 3, 4] }
    let late : Block := { offset := 9, data := [5] }
    let actions := [LedgerAction.put half, .put whole, .read ⟨[0, 0, 0], by decide⟩,
      .removeRange 0 2, .close, .put late]
    let ledger := actions.foldl Ledger.next { session := {} }
    ledger.Represents ∧ ledger.session.recvmarkqDistributed = 3 ∧
      ledger.session.recvmarkq = [{ block := half }, { block := late, distributed := true }] ∧
      ledger.entries.map Entry.pointer = [1, 0, 2] := by
  intro whole half late actions ledger
  exact ⟨(recvmarkq_represents (Session.fresh_configured _ _ _).cleared actions).1, by decide,
    by decide, by decide⟩

/-- Only the messager's count differs in what the two passes leave. -/
theorem readLoop_contiguous (queue : List BlockStatus) (pass : ReadPass) (count : Nat) :
    ∃ later, readLoop queue { pass with contiguous := count } =
      ((readLoop queue pass).1, { (readLoop queue pass).2 with contiguous := later }) := by
  induction queue generalizing pass count with
  | nil => exact ⟨count, rfl⟩
  | cons element rest ih =>
      have consumed : ReadPass.consume { pass with contiguous := count } element.block =
          ({ (pass.consume element.block).1 with contiguous := count },
            (pass.consume element.block).2) := by
        unfold ReadPass.consume
        dsimp only
        split
        · split <;> rfl
        · rfl
      by_cases reached : element.block.offset ≤ pass.distributed
      · simp only [readLoop, reached, ↓reduceIte, consumed]
        by_cases broke : (pass.consume element.block).2 = true
        · exact ⟨count, by simp only [broke, ↓reduceIte]⟩
        · obtain ⟨later, next⟩ := ih ((pass.consume element.block).1.distribute element.block)
            (if count < (pass.consume element.block).1.distributed then
              (pass.consume element.block).1.distributed else count)
          refine ⟨later, ?_⟩
          simp only [broke, Bool.false_eq_true, ↓reduceIte]
          have same : ReadPass.distribute
              { (pass.consume element.block).1 with contiguous := count } element.block =
              { (pass.consume element.block).1.distribute element.block with
                contiguous := if count < (pass.consume element.block).1.distributed then
                  (pass.consume element.block).1.distributed else count } := rfl
          rw [same, next]
      · exact ⟨count, by simp only [readLoop, reached, ↓reduceIte]⟩

namespace Session

variable {s other : Session}

theorem receiveState_put (same : s.receiveState = other.receiveState) (block : Block) :
    (s.handleRecvmarkqPut block).session.receiveState =
      (other.handleRecvmarkqPut block).session.receiveState := by
  simp only [receiveState, Prod.mk.injEq] at same
  obtain ⟨queue, maximum, distributed, offset, ended⟩ := same
  simp only [handleRecvmarkqPut, queue, maximum]
  split
  · simp only [receiveState, queue, maximum, distributed, offset, ended]
  · simp only [receiveState, distributed, offset, ended]

theorem receiveState_removeRange (same : s.receiveState = other.receiveState)
    (start stop : Nat) : (s.handleRecvmarkqRemoveRange start stop).receiveState =
      (other.handleRecvmarkqRemoveRange start stop).receiveState := by
  simp only [receiveState, Prod.mk.injEq] at same
  obtain ⟨queue, maximum, distributed, offset, ended⟩ := same
  simp only [handleRecvmarkqRemoveRange, receiveState, queue, maximum, distributed, offset, ended]

theorem receiveState_read (same : s.receiveState = other.receiveState) (buffer : Buffer) :
    (s.read buffer).session.receiveState = (other.read buffer).session.receiveState := by
  simp only [receiveState, Prod.mk.injEq] at same
  obtain ⟨queue, maximum, distributed, offset, ended⟩ := same
  by_cases empty : buffer.length = 0
  · simp only [Session.read, empty, ↓reduceIte, receiveState, queue, maximum, distributed, ended]
  · obtain ⟨later, passes⟩ := readLoop_contiguous other.recvmarkq (other.readEntry buffer)
      s.messager.theirContiguousSentBytes
    have entered : s.readEntry buffer = { other.readEntry buffer with
        contiguous := s.messager.theirContiguousSentBytes } := by
      simp only [readEntry, distributed, offset, ended]
    have pass : s.readPass buffer = ((other.readPass buffer).1,
        { (other.readPass buffer).2 with contiguous := later }) := by
      unfold readPass
      rw [queue, entered, passes]
    simp only [Session.read, empty, ↓reduceIte, pass]
    split <;> simp only [receiveState, maximum]

/-- The receive side got where it is by the actions of a ledger that started
cleared. -/
def Recorded (s : Session) : Prop :=
  ∃ (start : Session) (actions : List LedgerAction), start.Cleared ∧
    (actions.foldl Ledger.next { session := start }).session.receiveState = s.receiveState

theorem Recorded.act {s later : Session} (recorded : s.Recorded) (action : LedgerAction)
    (effect : ∀ ledger : Ledger, ledger.session.receiveState = s.receiveState →
      (ledger.next action).session.receiveState = later.receiveState) : later.Recorded := by
  obtain ⟨start, actions, cleared, same⟩ := recorded
  refine ⟨start, actions ++ [action], cleared, ?_⟩
  rw [List.foldl_append]
  exact effect _ same

theorem recorded_invariant : ReceiveInvariant Recorded where
  same := by
    rintro s later same ⟨start, actions, cleared, recorded⟩
    exact ⟨start, actions, cleared, recorded.trans same.symm⟩
  put := fun _ block recorded =>
    recorded.act (.put block) fun _ same => receiveState_put same block
  removeRange := fun _ start stop recorded =>
    recorded.act (.removeRange start stop) fun _ same => receiveState_removeRange same start stop
  read := fun _ buffer recorded =>
    recorded.act (.read buffer) fun _ same => receiveState_read same buffer
  closing := by
    intro s recorded
    apply recorded.act .close
    intro ledger same
    simp only [receiveState, Prod.mk.injEq] at same
    simp only [Ledger.next, Ledger.close, closing, receiveState, same]
  doClose := by
    intro s _
    exact ⟨s.doClose .success, [], ⟨rfl, rfl, rfl, rfl⟩, rfl⟩

end Session

/-- Whatever a session and its libcurvecpr do, the receive side is that of a
ledger, which started when the session was constructed or last closed. -/
theorem reached_recorded {session : Session} {service : Service} (fresh : session.Fresh)
    (reached : Reaches Service.next Service.Possible { session := session } service) :
    service.session.Recorded :=
  Session.recorded_invariant.reached ⟨session, [], fresh.cleared, rfl⟩ reached

end CurvecprAsio
