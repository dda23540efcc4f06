import VllmCore.Lib.Except

/-! # The shared-memory broadcast queue

`MessageQueue` hands objects from one writer to its local readers through a ring of blocks, each with a written flag
and a read flag per reader. An object too large for a block goes over a socket and its block only says so: the two are
matched by position alone. Every access to a flag is a step of its own, and the steps of all parties interleave. -/

namespace VllmCore
open Except Function

variable {α : Type}

/-- What a block holds: a pickled object, or the note that the object comes over the socket. -/
inductive Message (α : Type) where
  | inline (obj : α)
  | overflow

/-- Where the writer is in `enqueue`. -/
inductive WriterPc (α : Type) where
  | idle
  /-- `check` has summed up the first `i` read flags -/
  | check (obj : α) (i readCount : Nat)
  | blocked (obj : α)
  | acquired (obj : α)
  | cleared (obj : α)
  /-- the data is in the block and the first `i` read flags are 0 -/
  | filled (obj : α) (i : Nat)
  | published (obj : α)

/-- Where a reader is in `dequeue`. -/
inductive ReaderPc (α : Type) where
  | idle
  | check
  | checked (readFlag : Bool)
  | blocked
  | acquired
  | took (buf : Message α)
  | receiving

/-- A reader, with its flag in each block. -/
structure QueueReader (α : Type) where
  pc : ReaderPc α := .idle
  readFlag : Nat → Bool := fun _ => false
  /-- what the socket has still to deliver -/
  socket : List α := []
  /-- how many blocks were marked as read -/
  consumed : Nat := 0
  returned : List α := []

structure QueueState (α : Type) where
  writtenFlag : Nat → Bool := fun _ => false
  buf : Nat → Message α := fun _ => .overflow
  writer : WriterPc α := .idle
  /-- the objects whose block was marked as written, and those whose `enqueue` returned -/
  published : List α := []
  enqueued : List α := []
  readers : Nat → QueueReader α := fun _ => {}

inductive QueueOp (α : Type) where
  | enqueue (obj : α)
  | write
  | enqueueTimeout
  | read (r : Nat)
  | dequeueTimeout (r : Nat)
  | socketTimeout (r : Nat)

structure MessageQueue (α : Type) where
  nReader : Nat
  maxChunks : Nat
  /-- the pickled object does not fit into a block -/
  overflows : α → Bool
  maxChunks_pos : 0 < maxChunks

namespace MessageQueue
variable (q : MessageQueue α) (s : QueueState α)

def message (obj : α) : Message α :=
  if q.overflows obj then .overflow else .inline obj

/-- `current_idx` of a party that is past `n` blocks: it goes up by one modulo `max_chunks` with each of them. -/
def currentIdx (n : Nat) : Nat :=
  n % q.maxChunks

/-- The next step of `acquire_write` and of the rest of `enqueue`. -/
def write : Except Unit (QueueState α) :=
  let idx := q.currentIdx s.published.length
  match s.writer with
  | .idle => .error ()
  | .check obj i readCount =>
    if i < q.nReader then
      .ok { s with writer := .check obj (i + 1) (readCount + ((s.readers i).readFlag idx).toNat) }
    else if s.writtenFlag idx ∧ readCount ≠ q.nReader then .ok { s with writer := .blocked obj }
    else .ok { s with writer := .acquired obj }
  | .blocked obj => .ok { s with writer := .check obj 0 0 }
  | .acquired obj => .ok { s with writtenFlag := update s.writtenFlag idx false, writer := .cleared obj }
  | .cleared obj => .ok { s with buf := update s.buf idx (q.message obj), writer := .filled obj 0 }
  | .filled obj i =>
    if i < q.nReader then
      let reader := s.readers i
      .ok { s with
        readers := update s.readers i { reader with readFlag := update reader.readFlag idx false }
        writer := .filled obj (i + 1) }
    else
      .ok { s with
        writtenFlag := update s.writtenFlag idx true, published := s.published ++ [obj], writer := .published obj }
  | .published obj =>
    .ok { s with
      readers := fun r => { s.readers r with socket := (s.readers r).socket ++ [obj].filter q.overflows }
      enqueued := s.enqueued ++ [obj], writer := .idle }

def giveBack (reader : QueueReader α) : QueueReader α :=
  { reader with
    readFlag := update reader.readFlag (q.currentIdx reader.consumed) true, consumed := reader.consumed + 1 }

/-- The next step of `dequeue` and its `acquire_read`; an idle reader calls `dequeue`. -/
def read (reader : QueueReader α) : Except Unit (QueueReader α) :=
  let idx := q.currentIdx reader.consumed
  match reader.pc with
  | .idle => .ok { reader with pc := .check }
  | .check => .ok { reader with pc := .checked (reader.readFlag idx) }
  | .checked readFlag =>
    if s.writtenFlag idx ∧ ¬ readFlag then .ok { reader with pc := .acquired } else .ok { reader with pc := .blocked }
  | .blocked => .ok { reader with pc := .check }
  | .acquired => .ok { reader with pc := .took (s.buf idx) }
  -- the block is given back before `recv` looks at the socket
  | .took (.inline obj) => .ok { q.giveBack reader with pc := .idle, returned := reader.returned ++ [obj] }
  | .took .overflow => .ok { q.giveBack reader with pc := .receiving }
  | .receiving =>
    match reader.socket with
    | [] => .error ()
    | obj :: socket => .ok { reader with pc := .idle, socket, returned := reader.returned ++ [obj] }

/-- One step of one party. A call may time out whenever its check has failed, or while it waits for the socket. -/
def apply (op : QueueOp α) : Except Unit (QueueState α) :=
  match op with
  | .enqueue obj => match s.writer with
    | .idle =>
      if q.nReader = 0 then .ok { s with published := s.published ++ [obj], enqueued := s.enqueued ++ [obj] }
      else .ok { s with writer := .check obj 0 0 }
    | _ => .error ()
  | .write => q.write s
  | .enqueueTimeout => match s.writer with
    | .blocked _ => .ok { s with writer := .idle }
    | _ => .error ()
  | .read r => do
    let reader ← q.read s (s.readers r)
    pure { s with readers := update s.readers r reader }
  | .dequeueTimeout r => match (s.readers r).pc with
    | .blocked => .ok { s with readers := update s.readers r { s.readers r with pc := .idle } }
    | _ => .error ()
  | .socketTimeout r => match (s.readers r).pc with
    | .receiving => .ok { s with readers := update s.readers r { s.readers r with pc := .idle } }
    | _ => .error ()

def run (ops : List (QueueOp α)) : Except Unit (QueueState α) :=
  ops.foldlM q.apply {}

end MessageQueue

/-! ## The writer and one reader -/

/-- The writer is changing the block of its next object. -/
def WriterPc.busy : WriterPc α → Nat
  | .cleared _ | .filled .. => 1
  | _ => 0

/-- The object whose `enqueue` can no longer fail. -/
def WriterPc.returning : WriterPc α → List α
  | .published obj => [obj]
  | _ => []

/-- The reader has given back a block whose object it does not have yet. -/
def ReaderPc.waiting : ReaderPc α → Nat
  | .receiving => 1
  | _ => 0

namespace MessageQueue
variable (q : MessageQueue α) (r : Nat) (s : QueueState α) (reader : QueueReader α)

/-- What the writer has learnt of reader `r`. -/
def WriterOk : WriterPc α → Prop
  | .check _ i readCount => readCount ≤ i ∧ i ≤ q.nReader ∧
      (r < i → readCount < i ∨ s.published.length < reader.consumed + q.maxChunks)
  | .acquired _ => s.published.length < reader.consumed + q.maxChunks
  | .cleared _ => s.writtenFlag (q.currentIdx s.published.length) = false
  | .filled obj i => s.writtenFlag (q.currentIdx s.published.length) = false ∧
      s.buf (q.currentIdx s.published.length) = q.message obj ∧
      (r < i → reader.readFlag (q.currentIdx s.published.length) = false)
  | _ => True

/-- What the reader has learnt of the writer. -/
def ReaderOk : ReaderPc α → Prop
  | .checked readFlag => readFlag = false → reader.consumed < s.published.length ∨
      s.writtenFlag (q.currentIdx reader.consumed) = false
  | .acquired => reader.consumed < s.published.length
  | .took buf => ∃ obj, s.published[reader.consumed]? = some obj ∧ buf = q.message obj
  | .receiving => ∃ obj, s.published[reader.returned.length]? = some obj ∧ q.overflows obj
  | _ => True

/-- The writer is at most one turn of the ring ahead of the reader, the last turn of blocks holds what was published,
and the reader is owed what it has not returned. -/
structure Follows : Prop where
  le : reader.consumed ≤ s.published.length
  fits : s.published.length + s.writer.busy ≤ reader.consumed + q.maxChunks
  fresh : ∀ j, s.published.length ≤ j → j < q.maxChunks → s.writtenFlag j = false
  holds : ∀ m obj, s.published[m]? = some obj → s.published.length + s.writer.busy ≤ m + q.maxChunks →
    s.writtenFlag (q.currentIdx m) = true ∧ s.buf (q.currentIdx m) = q.message obj ∧
      reader.readFlag (q.currentIdx m) = decide (m < reader.consumed)
  writerOk : q.WriterOk r s reader s.writer
  readerOk : q.ReaderOk s reader reader.pc
  consumed : reader.consumed = reader.returned.length + reader.pc.waiting
  -- the socket has the large objects that are not returned, in order
  owed : ∃ rest, s.published = reader.returned ++ rest ∧
    reader.socket ++ s.writer.returning.filter q.overflows = rest.filter q.overflows

variable {q r s reader} {s' : QueueState α} {reader' : QueueReader α}

/-- Objects less than one turn apart have different blocks. -/
theorem currentIdx_ne {m n : Nat} (hlt : m < n) (hn : n < m + q.maxChunks) : q.currentIdx m ≠ q.currentIdx n := by
  intro h
  have hsub := Nat.sub_mod_eq_zero_of_mod_eq h.symm
  rw [Nat.mod_eq_of_lt (by omega)] at hsub
  omega

theorem eq_cons_of_owed {returned rest : List α} {obj : α} (hrest : s.published = returned ++ rest)
    (ho : s.published[returned.length]? = some obj) : ∃ rest', rest = obj :: rest' := by
  rw [hrest, List.getElem?_append_right (Nat.le_refl _), Nat.sub_self] at ho
  cases rest with
  | nil => cases ho
  | cons x rest => cases ho; exact ⟨rest, rfl⟩

namespace Follows
variable (h : q.Follows r s reader)
include h

/-- In a full ring the next block holds the object that the reader has to read next. -/
theorem full (hbusy : s.writer.busy = 0) (hfull : ¬ s.published.length < reader.consumed + q.maxChunks) :
    s.writtenFlag (q.currentIdx s.published.length) = true ∧
      reader.readFlag (q.currentIdx s.published.length) = false := by
  have hpos := q.maxChunks_pos
  have hfits := h.fits
  have heq : s.published.length = reader.consumed + q.maxChunks := by omega
  have hidx : q.currentIdx s.published.length = q.currentIdx reader.consumed := by
    rw [heq]
    exact Nat.add_mod_right ..
  obtain ⟨hw, -, hf⟩ := h.holds reader.consumed _ (List.getElem?_eq_getElem (by omega)) (by omega)
  rw [hidx]
  exact ⟨hw, by simpa using hf⟩

/-- A block that the reader has not read is new, or it is not written. -/
theorem unread (hflag : reader.readFlag (q.currentIdx reader.consumed) = false) :
    reader.consumed < s.published.length ∨ s.writtenFlag (q.currentIdx reader.consumed) = false := by
  rcases Nat.lt_or_eq_of_le h.le with hlt | heq
  · exact .inl hlt
  right
  have hw := h.writerOk
  have hpos := q.maxChunks_pos
  rw [heq] at hflag ⊢
  rcases Nat.lt_or_ge s.published.length q.maxChunks with hfew | hmany
  · rw [currentIdx, Nat.mod_eq_of_lt hfew]
    exact h.fresh _ (Nat.le_refl _) hfew
  by_cases hbusy : s.writer.busy = 0
  · -- the block was used one turn before, for an object that the reader has read
    obtain ⟨-, -, hf⟩ := h.holds (s.published.length - q.maxChunks) _ (List.getElem?_eq_getElem (by omega)) (by omega)
    rw [currentIdx, ← Nat.mod_eq_sub_mod hmany, ← currentIdx, hflag] at hf
    exact absurd hf.symm (by simp; omega)
  · cases hpc : s.writer with
    | cleared obj => rw [hpc] at hw; exact hw
    | filled obj i => rw [hpc] at hw; exact hw.1
    | _ => rw [hpc] at hbusy; exact absurd rfl hbusy

/-- The writer goes on without touching a block. -/
theorem move {pc : WriterPc α} (hbusy : pc.busy = s.writer.busy) (hret : pc.returning = s.writer.returning)
    (hpc : q.WriterOk r s reader pc) : q.Follows r { s with writer := pc } reader :=
  { h with fits := hbusy ▸ h.fits, holds := hbusy ▸ h.holds, writerOk := hpc, owed := hret ▸ h.owed }

/-- The writer marks the block as written. -/
theorem publish {obj : α} {i : Nat} (hpc : s.writer = .filled obj i) (hi : r < i) :
    q.Follows r { s with
      writtenFlag := update s.writtenFlag (q.currentIdx s.published.length) true
      published := s.published ++ [obj], writer := .published obj } reader := by
  obtain ⟨hle, hfits, hfresh, hholds, hw, hrd, hcons, rest, hrest, hsock⟩ := h
  rw [hpc] at hfits hholds hw hsock
  obtain ⟨-, hbuf, hflag⟩ := hw
  have hlen : (s.published ++ [obj]).length = s.published.length + 1 := List.length_append
  have hlt : reader.consumed < (s.published ++ [obj]).length := hlen ▸ Nat.lt_succ_of_le hle
  have hstays {n : Nat} {o : α} (ho : s.published[n]? = some o) : (s.published ++ [obj])[n]? = some o := by
    rwa [List.getElem?_append_left (List.getElem?_eq_some_iff.1 ho).1]
  refine
    { le := Nat.le_of_lt hlt, fits := hlen ▸ hfits, fresh := ?_, holds := ?_, writerOk := trivial, readerOk := ?_
      consumed := hcons, owed := ⟨rest ++ [obj], ?_, ?_⟩ }
  · intro j hj hk
    simp only [hlen] at hj
    have hne : j ≠ q.currentIdx s.published.length := by
      rw [currentIdx, Nat.mod_eq_of_lt (by omega)]
      omega
    simp only [update_of_ne hne]
    exact hfresh j (Nat.le_of_succ_le hj) hk
  · intro m o hm hk
    simp only [hlen] at hm hk
    rcases Nat.lt_or_ge m s.published.length with hlt | hge
    · simp only [update_of_ne (currentIdx_ne hlt hk)]
      exact hholds m o (by rwa [List.getElem?_append_left hlt] at hm) hk
    · obtain ⟨hlast, rfl⟩ := List.getElem?_eq_some_iff.1 hm
      obtain rfl : m = s.published.length := by omega
      simpa [Nat.not_lt.2 hle] using ⟨hbuf, hflag hi⟩
  · cases hp : reader.pc with
    | checked readFlag => exact fun _ => .inl hlt
    | acquired => exact hlt
    | took buf => rw [hp] at hrd; exact hrd.imp fun o ho => ho.imp_left hstays
    | receiving => rw [hp] at hrd; exact hrd.imp fun o ho => ho.imp_left hstays
    | _ => trivial
  · rw [hrest, List.append_assoc]
  · rw [List.filter_append, ← hsock]
    simp [WriterPc.returning]

/-- The reader marks the block as read. -/
theorem giveBack {pc : ReaderPc α} {returned : List α} (hlt : reader.consumed < s.published.length)
    (hcons : reader.consumed + 1 = returned.length + pc.waiting)
    (hok : q.ReaderOk s { q.giveBack reader with pc, returned } pc) (howed : ∃ rest, s.published = returned ++ rest ∧
      reader.socket ++ s.writer.returning.filter q.overflows = rest.filter q.overflows) :
    q.Follows r s { q.giveBack reader with pc, returned } := by
  obtain ⟨-, hfits, hfresh, hholds, hw, -, -, -⟩ := h
  refine ⟨hlt, by dsimp only [MessageQueue.giveBack]; omega, hfresh, fun m obj hm hk => ?_, ?_, hok, hcons, howed⟩
  · obtain ⟨hwritten, hbuf, hflag⟩ := hholds m obj hm hk
    have hml := (List.getElem?_eq_some_iff.1 hm).1
    refine ⟨hwritten, hbuf, ?_⟩
    dsimp only [MessageQueue.giveBack]
    rcases Nat.lt_trichotomy m reader.consumed with hm | rfl | hm
    · rw [update_of_ne (currentIdx_ne hm (by omega)), hflag]
      exact decide_eq_decide.2 (by omega)
    · simp
    · rw [update_of_ne (currentIdx_ne hm (by omega)).symm, hflag]
      exact decide_eq_decide.2 (by omega)
  · generalize s.writer = writer at hw hfits ⊢
    have hroom : reader.consumed + q.maxChunks ≤ (q.giveBack reader).consumed + q.maxChunks :=
      Nat.add_le_add_right (Nat.le_succ _) _
    cases writer with
    | check obj i readCount => exact ⟨hw.1, hw.2.1, fun hi => (hw.2.2 hi).imp_right (Nat.lt_of_lt_of_le · hroom)⟩
    | acquired obj => exact Nat.lt_of_lt_of_le hw hroom
    | filled obj i =>
      refine ⟨hw.1, hw.2.1, fun hi => ?_⟩
      dsimp only [MessageQueue.giveBack]
      rw [update_of_ne (currentIdx_ne hlt hfits).symm, hw.2.2 hi]
    | _ => exact hw

end Follows

theorem Follows.write (h : q.Follows r s (s.readers r)) (hr : r < q.nReader) (hstep : q.write s = .ok s') :
    q.Follows r s' (s'.readers r) := by
  obtain ⟨hle, hfits, hfresh, hholds, hw, hrd, hcons, howed⟩ := id h
  have hother {m : Nat} {obj : α} (hm : s.published[m]? = some obj) (hk : s.published.length + 1 ≤ m + q.maxChunks) :
      q.currentIdx m ≠ q.currentIdx s.published.length :=
    currentIdx_ne (List.getElem?_eq_some_iff.1 hm).1 hk
  have hfull := h.full
  obtain ⟨writtenFlag, buf, writer, published, enqueued, readers⟩ := s
  cases writer with
  | idle => cases hstep
  | check obj i readCount =>
    obtain ⟨hcount, hi, hroom⟩ := hw
    simp only [MessageQueue.write] at hstep
    split at hstep
    next hlt =>
      cases hstep
      refine h.move rfl rfl ⟨Nat.add_le_add hcount (Bool.toNat_le _), hlt, fun hri => ?_⟩
      rcases Nat.lt_succ_iff_lt_or_eq.1 hri with hri | rfl
      · exact (hroom hri).imp_left fun hc => Nat.add_lt_add_of_lt_of_le hc (Bool.toNat_le _)
      · by_cases hno : published.length < (readers r).consumed + q.maxChunks
        · exact .inr hno
        · rw [(hfull rfl hno).2]
          exact .inl (Nat.lt_succ_of_le hcount)
    next hge =>
      split at hstep
      next => cases hstep; exact h.move rfl rfl trivial
      next hpass =>
        cases hstep
        refine h.move rfl rfl (Classical.byContradiction fun hno => hpass ⟨(hfull rfl hno).1, fun hall => ?_⟩)
        rcases hroom (by omega) with hc | hc
        · omega
        · exact hno hc
  | blocked obj => cases hstep; exact h.move rfl rfl ⟨Nat.le_refl _, Nat.zero_le _, nofun⟩
  | acquired obj =>
    cases hstep
    have hclear {j : Nat} (hj : writtenFlag j = false) :
        update writtenFlag (q.currentIdx published.length) false j = false := by
      rw [update_apply, hj, ite_self]
    refine ⟨hle, hw, fun j hj hk => hclear (hfresh j hj hk), fun m o hm hk => ?_, update_self .., ?_, hcons, howed⟩
    · simp only [update_of_ne (hother hm hk)]
      exact hholds m o hm (Nat.le_of_succ_le hk)
    · dsimp only
      cases hp : (readers r).pc with
      | checked readFlag => rw [hp] at hrd; exact fun hf => (hrd hf).imp_right hclear
      | _ => rw [hp] at hrd; exact hrd
  | cleared obj =>
    cases hstep
    refine ⟨hle, hfits, hfresh, fun m o hm hk => ?_, ⟨hw, update_self .., nofun⟩, hrd, hcons, howed⟩
    simp only [update_of_ne (hother hm hk)]
    exact hholds m o hm hk
  | filled obj i =>
    simp only [MessageQueue.write] at hstep
    split at hstep
    next =>
      cases hstep
      obtain ⟨hwritten, hbuf, hflag⟩ := hw
      rcases eq_or_ne r i with rfl | hne
      · simp only [update_self]
        refine ⟨hle, hfits, hfresh, fun m o hm hk => ?_, ⟨hwritten, hbuf, fun _ => update_self ..⟩, hrd, hcons, howed⟩
        simp only [update_of_ne (hother hm hk)]
        exact hholds m o hm hk
      · simp only [update_of_ne hne]
        exact ⟨hle, hfits, hfresh, hholds, ⟨hwritten, hbuf, fun hri => hflag (by omega)⟩, hrd, hcons, howed⟩
    next =>
      cases hstep
      exact h.publish rfl (by omega)
  | published obj =>
    cases hstep
    refine ⟨hle, hfits, hfresh, hholds, trivial, hrd, hcons, ?_⟩
    simpa [WriterPc.returning] using howed

/-- The reader goes on without touching a block. -/
theorem Follows.look {pc : ReaderPc α} (h : q.Follows r s reader) (hpc : pc.waiting = reader.pc.waiting)
    (hok : q.ReaderOk s reader pc) : q.Follows r s { reader with pc } :=
  { h with readerOk := hok, consumed := hpc ▸ h.consumed }

theorem Follows.read (h : q.Follows r s reader) (hstep : q.read s reader = .ok reader') : q.Follows r s reader' := by
  obtain ⟨hle, hfits, hfresh, hholds, hw, hrd, hcons, rest, hrest, hsock⟩ := id h
  have hunread := h.unread
  obtain ⟨pc, readFlag, socket, consumed, returned⟩ := reader
  cases pc with
  | idle => cases hstep; exact h.look rfl trivial
  | check => cases hstep; exact h.look rfl hunread
  | checked readFlag =>
    simp only [MessageQueue.read] at hstep
    split at hstep
    next hpass =>
      cases hstep
      refine h.look rfl ((hrd (by simpa using hpass.2)).resolve_right ?_)
      simp [hpass.1]
    next => cases hstep; exact h.look rfl trivial
  | blocked => cases hstep; exact h.look rfl trivial
  | acquired =>
    cases hstep
    obtain ⟨-, hbuf, -⟩ := hholds consumed _ (List.getElem?_eq_getElem hrd) hfits
    exact h.look rfl ⟨_, List.getElem?_eq_getElem hrd, hbuf⟩
  | took buf =>
    obtain ⟨obj, ho, rfl⟩ := hrd
    obtain rfl : consumed = returned.length := hcons
    have hlt := (List.getElem?_eq_some_iff.1 ho).1
    by_cases hov : q.overflows obj
    · rw [show q.message obj = .overflow from if_pos hov] at hstep
      cases hstep
      exact h.giveBack hlt (rfl : _ = _ + ReaderPc.receiving.waiting) ⟨obj, ho, hov⟩ ⟨rest, hrest, hsock⟩
    · rw [show q.message obj = .inline obj from if_neg hov] at hstep
      cases hstep
      obtain ⟨rest, rfl⟩ := eq_cons_of_owed hrest ho
      refine h.giveBack hlt (by simp [ReaderPc.waiting]) trivial ⟨rest, ?_, ?_⟩
      · rw [hrest, List.append_assoc]
        rfl
      · rw [List.filter_cons_of_neg hov] at hsock
        exact hsock
  | receiving =>
    obtain ⟨obj, ho, hov⟩ := hrd
    obtain ⟨rest, rfl⟩ := eq_cons_of_owed hrest ho
    rw [List.filter_cons_of_pos hov] at hsock
    cases socket with
    | nil => cases hstep
    | cons first socket =>
      cases hstep
      injection hsock with hfirst hsock
      subst hfirst
      refine ⟨hle, hfits, hfresh, hholds, hw, trivial, hcons.trans (by simp [ReaderPc.waiting]), rest, ?_, hsock⟩
      rw [hrest, List.append_assoc]
      rfl

/-- Every object published was enqueued, and every reader follows. -/
structure Delivering (q : MessageQueue α) (s : QueueState α) : Prop where
  published : s.published = s.enqueued ++ s.writer.returning
  follows : ∀ r < q.nReader, q.Follows r s (s.readers r)

theorem write_published (h : s.published = s.enqueued ++ s.writer.returning) (hstep : q.write s = .ok s') :
    s'.published = s'.enqueued ++ s'.writer.returning := by
  obtain ⟨writtenFlag, buf, writer, published, enqueued, readers⟩ := s
  obtain rfl : published = enqueued ++ writer.returning := h
  cases writer with
  | check | filled =>
    simp only [MessageQueue.write] at hstep
    split at hstep
    · cases hstep; rfl
    · first | split at hstep <;> cases hstep <;> rfl | cases hstep; simp [WriterPc.returning]
  | published => cases hstep; simp [WriterPc.returning]
  | _ => cases hstep <;> rfl

theorem Delivering.apply {op : QueueOp α} (h : q.Delivering s) (hop : ∀ r, op ≠ .socketTimeout r)
    (hstep : q.apply s op = .ok s') : q.Delivering s' := by
  obtain ⟨hpub, hfollows⟩ := h
  have hreader {r : Nat} {reader : QueueReader α} (hr : ∀ r', q.Follows r' s (s.readers r) → q.Follows r' s reader) :
      q.Delivering { s with readers := update s.readers r reader } := by
    refine ⟨hpub, fun r' hr' => ?_⟩
    rcases eq_or_ne r' r with rfl | hne
    · simp only [update_self]
      exact { hr r' (hfollows r' hr') with }
    · simp only [update_of_ne hne]
      exact { hfollows r' hr' with }
  unfold MessageQueue.apply at hstep
  cases op with
  | enqueue obj =>
    cases hpc : s.writer with
    | idle =>
      simp only [hpc] at hstep hpub
      split at hstep
      next hnone => cases hstep; exact ⟨by simp [hpub, WriterPc.returning], fun r hr => absurd hr (by omega)⟩
      next =>
        cases hstep
        exact ⟨hpub, fun r hr => (hfollows r hr).move (by rw [hpc]; rfl) (by rw [hpc]; rfl)
          ⟨Nat.le_refl _, Nat.zero_le _, nofun⟩⟩
    | _ => simp only [hpc] at hstep; cases hstep
  | write => exact ⟨write_published hpub hstep, fun r hr => (hfollows r hr).write hr hstep⟩
  | enqueueTimeout =>
    cases hpc : s.writer with
    | blocked obj =>
      simp only [hpc] at hstep hpub
      cases hstep
      exact ⟨hpub, fun r hr => (hfollows r hr).move (by rw [hpc]; rfl) (by rw [hpc]; rfl) trivial⟩
    | _ => simp only [hpc] at hstep; cases hstep
  | read r =>
    simp only [bind_eq_ok, pure_eq_ok] at hstep
    obtain ⟨reader, hread, rfl⟩ := hstep
    exact hreader fun _ h => h.read hread
  | dequeueTimeout r =>
    cases hpc : (s.readers r).pc with
    | blocked =>
      simp only [hpc] at hstep
      cases hstep
      exact hreader fun _ h => h.look (by rw [hpc]; rfl) trivial
    | _ => simp only [hpc] at hstep; cases hstep
  | socketTimeout r => exact absurd rfl (hop r)

/-- In every run in which no `dequeue` times out while it waits for the socket: what a reader's calls return is, in
order, what was published first; a reader between two calls has marked just those blocks as read; and the writer has
published what its calls have enqueued, apart from the object of a call that can only return. -/
theorem broadcast_in_order (q : MessageQueue α) (ops : List (QueueOp α)) (s : QueueState α)
    (hops : ∀ r, .socketTimeout r ∉ ops) (hrun : q.run ops = .ok s) :
    s.published = s.enqueued ++ s.writer.returning ∧ ∀ r < q.nReader, (s.readers r).returned <+: s.published ∧
      ((s.readers r).pc = .idle → (s.readers r).consumed = (s.readers r).returned.length) := by
  have hend : q.Delivering s := by
    refine List.foldlM_inv (P := q.Delivering) (fun op hop _ _ h hstep => ?_) hrun ⟨rfl, fun r _ => ?_⟩
    · exact h.apply (fun r he => hops r (he ▸ hop)) hstep
    · exact ⟨Nat.le_refl _, Nat.zero_le _, fun _ _ _ => rfl, nofun, trivial, trivial, rfl, [], rfl, rfl⟩
  refine ⟨hend.published, fun r hr => ?_⟩
  obtain ⟨-, -, -, -, -, -, hcons, rest, hrest, -⟩ := hend.follows r hr
  exact ⟨⟨rest, hrest.symm⟩, fun hidle => by rw [hcons, hidle]; rfl⟩

/-- Two blocks, one reader; objects from 10 on are too large for a block. -/
def smallQueue : MessageQueue Nat :=
  { nReader := 1, maxChunks := 2, overflows := fun obj => 10 ≤ obj, maxChunks_pos := Nat.two_pos }

/-- One call each, from its start to its end. -/
def enqueueOps (obj : Nat) : List (QueueOp Nat) :=
  .enqueue obj :: List.replicate 7 .write

def dequeueOps (n : Nat) : List (QueueOp Nat) :=
  List.replicate n (.read 0)

/-- A `dequeue` times out at once and an `enqueue` times out on a full ring; both are called again. -/
def retriedOps : List (QueueOp Nat) :=
  dequeueOps 3 ++ .dequeueTimeout 0 :: enqueueOps 10 ++ enqueueOps 1 ++ [.enqueue 2, .write, .write, .enqueueTimeout] ++
    dequeueOps 6 ++ enqueueOps 2 ++ dequeueOps 5

theorem broadcast_in_order_retried : ∃ s, smallQueue.run retriedOps = .ok s ∧ s.enqueued = [10, 1, 2] ∧
    (s.readers 0).returned = [10, 1] ∧ (s.readers 0).returned <+: s.published := by
  refine ⟨_, rfl, rfl, rfl, ((broadcast_in_order smallQueue retriedOps _ (fun r => ?_) rfl).2 0 Nat.one_pos).1⟩
  simp [retriedOps, dequeueOps, enqueueOps]

/-- The large object 10 is not there in time: its `dequeue` gives up the block. The next one, for the block of 11,
returns 10. -/
theorem socket_timeout_shifts : ∃ s, smallQueue.run (enqueueOps 10 ++ dequeueOps 5 ++ .socketTimeout 0 ::
    enqueueOps 11 ++
      dequeueOps 6 ++ enqueueOps 1 ++ dequeueOps 5) = .ok s ∧ s.enqueued = [10, 11, 1] ∧
    (s.readers 0).returned = [10, 1] ∧ ¬ (s.readers 0).returned <+: s.published := by
  refine ⟨_, rfl, rfl, rfl, ?_⟩
  decide

end MessageQueue
end VllmCore
