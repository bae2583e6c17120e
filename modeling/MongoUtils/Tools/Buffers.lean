import MongoUtils.Tools.Completion

/-!
# The buffers of a dump

A producer copies a document into a buffer of its own and puts the buffer into the queue, and the
writer takes it out, writes its bytes and deletes it: what the threads pass on is an address. The
heap is shared and no mutex guards it, so that the threads use it between their calls in any order,
and the allocator may return an address again as soon as its buffer is deleted.

* `BufferLocals`, `Step`: the threads with their buffers. A thread that reads or deletes a buffer
  that is not allocated goes wrong (`fault`);
* `Owned`: every allocated buffer has exactly one owner, a producer, the queue or the writer;
* `Refines`: the dump of `MongoDump.lean`, in which the documents themselves are passed on, does
  the same (`reaches_refines`);
* `buffers_safe`, `buffers_left`: no buffer is used after its end or deleted twice, few are
  allocated at any time, and what is left in the end.
-/

namespace MongoUtils
namespace Tools

open Base Monitor

/-- The address of a buffer. -/
abbrev Address := ℕ

/-- The addresses of the allocated buffers, and the bytes at all addresses. -/
structure Heap where
  live : Finset Address
  bytes : Address → List UInt8

namespace Heap

/-- `char* buffer = new char[d.objsize()]; memcpy(buffer, d.objdata(), d.objsize());` -/
def fill (h : Heap) (p : Address) (d : BSONObj) : Heap :=
  ⟨insert p h.live, Function.update h.bytes p d.objdata⟩

/-- `delete d->objdata();`, as if it were the `delete[]` that belongs to `new char[]`: what the scalar
`delete` does to an array is left out. -/
def delete (h : Heap) (p : Address) : Heap := ⟨h.live.erase p, h.bytes⟩

/-- The buffer at `p` holds the document `d`. -/
def Holds (h : Heap) (p : Address) (d : BSONObj) : Prop := p ∈ h.live ∧ h.bytes p = d.objdata

variable {h : Heap} {p q : Address} {d e : BSONObj}

theorem holds_fill (h : Heap) (p : Address) (d : BSONObj) : (h.fill p d).Holds p d :=
  ⟨Finset.mem_insert_self .., Function.update_self ..⟩

/-- A buffer keeps its document when another one is allocated. -/
theorem Holds.fill (hq : h.Holds q e) (hp : p ∉ h.live) : (h.fill p d).Holds q e := by
  have hqp : q ≠ p := by
    rintro rfl
    exact hp hq.1
  exact ⟨Finset.mem_insert_of_mem hq.1, (Function.update_of_ne hqp ..).trans hq.2⟩

/-- A buffer keeps its document when another one is deleted. -/
theorem Holds.delete (hq : h.Holds q e) (hqp : q ≠ p) : (h.delete p).Holds q e :=
  ⟨Finset.mem_erase.2 ⟨hqp, hq.1⟩, hq.2⟩

end Heap

/-- The variable `d` of `dump_writer`, and where in the loop the writer is. -/
inductive Current
  | none
  /-- At `if (d->isValid())`. -/
  | taken (p : Address)
  /-- At `delete d->objdata();`. -/
  | written (p : Address)

/-- The local variables of a thread: the producer has a buffer from its allocation to the return of
`q.put`. -/
inductive BufferLocals
  | dumpMongod (cursor : List BSONObj) (buffer : Option Address)
  | dumpWriter (total counter invalidCounter : Int32) (out : List UInt8) (d : Current)

namespace BufferLocals

/-- A thread with a buffer to put, or without one to write, calls a method of the queue. -/
def call : BufferLocals → Option (Call Address)
  | dumpMongod _ buffer => buffer.map .put
  | dumpWriter total counter _ _ .none => if counter < total then some .take else .none
  | dumpWriter _ _ _ _ _ => .none

/-- The return of `q.put` and of `q.take`. -/
def resume : BufferLocals → Option Address → BufferLocals
  | dumpMongod cursor _, _ => dumpMongod cursor.tail none
  | dumpWriter total counter invalidCounter out _, some p =>
      dumpWriter total counter invalidCounter out (.taken p)
  | l, none => l

/-- The rest of the loop of the writer, but for `delete` and `++counter`. -/
def write (isValid : BSONObj → Bool) (bytes : List UInt8) : BufferLocals → BufferLocals
  | dumpWriter total counter invalidCounter out (.taken p) =>
      if isValid ⟨bytes⟩ then dumpWriter total counter invalidCounter (out ++ bytes) (.written p)
      else dumpWriter total counter (invalidCounter + 1) out (.written p)
  | l => l

/-- `++counter`. -/
def next : BufferLocals → BufferLocals
  | dumpWriter total counter invalidCounter out _ =>
      dumpWriter total (counter + 1) invalidCounter out .none
  | l => l

/-- The buffers that the thread has. -/
def owns : BufferLocals → Multiset Address
  | dumpMongod _ none => 0
  | dumpMongod _ (some p) => {p}
  | dumpWriter _ _ _ _ .none => 0
  | dumpWriter _ _ _ _ (.taken p) => {p}
  | dumpWriter _ _ _ _ (.written p) => {p}

end BufferLocals

/-- The threads around the queue of addresses. -/
def bufferSystem (K : ℕ) :
    System (CircularBuffer Address K) Cond (Call Address) (Option Address) BufferLocals :=
  BoundedBlockingQueue.system K ⟨BufferLocals.call, BufferLocals.resume⟩

/-- The threads, the heap, and whether a thread has used a buffer that is not allocated. -/
structure BufferConfig (K : ℕ) (S : Type*) where
  threads : Config (CircularBuffer Address K) Cond (Call Address) (Option Address) BufferLocals
    (Option S)
  heap : Heap
  fault : Bool

variable {S : Type*} {K : ℕ} {isValid : BSONObj → Bool} {total : Int32}
  {cursors : S → List BSONObj}

/-- Thread `t` moves on to `l`, with heap `h`. -/
def BufferConfig.set [DecidableEq S] (x : BufferConfig K S) (t : Option S) (l : BufferLocals)
    (h : Heap) : BufferConfig K S :=
  ⟨{ x.threads with loc := Function.update x.threads.loc t l }, h, x.fault⟩

namespace Buffers

/-- One step of one thread: a critical section of the queue, or what it does with a buffer. -/
inductive Step [DecidableEq S] (isValid : BSONObj → Bool) :
    BufferConfig K S → BufferConfig K S → Prop
  | call {x : BufferConfig K S} {a : Action (Option S)}
      {c : Config (CircularBuffer Address K) Cond (Call Address) (Option Address) BufferLocals
        (Option S)} : x.fault = false → (bufferSystem K).Step a x.threads c →
      Step isValid x { x with threads := c }
  -- The allocator returns any address that is free.
  | fill {x : BufferConfig K S} {s : S} {d : BSONObj} {cursor : List BSONObj} {p : Address} :
      x.fault = false → x.threads.aborted = false →
      x.threads.loc (some s) = .dumpMongod (d :: cursor) none → p ∉ x.heap.live →
      Step isValid x (x.set (some s) (.dumpMongod (d :: cursor) (some p)) (x.heap.fill p d))
  | write {x : BufferConfig K S} {total counter invalidCounter : Int32} {out : List UInt8}
      {p : Address} : x.fault = false → x.threads.aborted = false →
      x.threads.loc none = .dumpWriter total counter invalidCounter out (.taken p) →
      p ∈ x.heap.live →
      Step isValid x
        (x.set none ((x.threads.loc none).write isValid (x.heap.bytes p)) x.heap)
  | delete {x : BufferConfig K S} {total counter invalidCounter : Int32} {out : List UInt8}
      {p : Address} : x.fault = false → x.threads.aborted = false →
      x.threads.loc none = .dumpWriter total counter invalidCounter out (.written p) →
      p ∈ x.heap.live →
      Step isValid x (x.set none (x.threads.loc none).next (x.heap.delete p))
  | fault {x : BufferConfig K S} {total counter invalidCounter : Int32} {out : List UInt8}
      {d : Current} {p : Address} : x.fault = false → x.threads.aborted = false →
      x.threads.loc none = .dumpWriter total counter invalidCounter out d →
      d = .taken p ∨ d = .written p → p ∉ x.heap.live →
      Step isValid x { x with fault := true }

/-- Any number of steps of any threads. -/
def Reaches [DecidableEq S] (isValid : BSONObj → Bool) :
    BufferConfig K S → BufferConfig K S → Prop :=
  Relation.ReflTransGen (Step isValid)

/-- The state of the program when `main` has started the threads. `bytes` is what lies about in
memory. -/
def start (K : ℕ) (total : Int32) (cursors : S → List BSONObj) (bytes : Address → List UInt8) :
    BufferConfig K S :=
  ⟨Monitor.start .new fun
    | none => .dumpWriter total 0 0 [] .none
    | some s => .dumpMongod (cursors s) none, ⟨∅, bytes⟩, false⟩

/-! ### Every buffer has one owner -/

/-- The allocated buffers are those that the threads have and those in the queue, each once. -/
def Owned [Fintype S] (x : BufferConfig K S) : Prop :=
  ∑ t, (x.threads.loc t).owns + (x.threads.shared.items : Multiset Address) = x.heap.live.val

section Ownership

variable [Fintype S] {x : BufferConfig K S}

theorem Owned.mem_live (h : Owned x) {t : Option S} {p : Address}
    (hp : p ∈ (x.threads.loc t).owns) : p ∈ x.heap.live := by
  rw [← Finset.mem_val, ← h]
  exact Multiset.mem_add.2 (Or.inl (Multiset.mem_sum.2 ⟨t, Finset.mem_univ t, hp⟩))

/-- No two threads have the same buffer. -/
theorem Owned.ne_of_ne [DecidableEq S] (h : Owned x) {t u : Option S} (htu : t ≠ u) {p q : Address}
    (hp : p ∈ (x.threads.loc t).owns) (hq : q ∈ (x.threads.loc u).owns) : q ≠ p := by
  rintro rfl
  have hnodup : (∑ t, (x.threads.loc t).owns).Nodup :=
    Multiset.nodup_of_le (h ▸ Multiset.le_add_right _ _) x.heap.live.nodup
  rw [← Finset.add_sum_erase _ _ (Finset.mem_univ t), Multiset.nodup_add] at hnodup
  refine Multiset.disjoint_left.1 hnodup.2.2 hp (Multiset.mem_sum.2 ⟨u, ?_, hq⟩)
  exact Finset.mem_erase.2 ⟨htu.symm, Finset.mem_univ u⟩

/-- No buffer of a thread is in the queue. -/
theorem Owned.ne_of_mem (h : Owned x) {t : Option S} {p q : Address}
    (hp : p ∈ (x.threads.loc t).owns) (hq : q ∈ x.threads.shared.items) : q ≠ p := by
  rintro rfl
  have hnodup := x.heap.live.nodup
  rw [← h, Multiset.nodup_add] at hnodup
  exact Multiset.disjoint_left.1 hnodup.2.2 (Multiset.mem_sum.2 ⟨t, Finset.mem_univ t, hp⟩) hq

variable [DecidableEq S]

/-- A thread gets a buffer and gives one away, and so does the queue. -/
theorem owned_update {x' : BufferConfig K S} {t : Option S} {l : BufferLocals} (h : Owned x)
    (hloc : x'.threads.loc = Function.update x.threads.loc t l)
    (hbal : x.heap.live.val + l.owns + (x'.threads.shared.items : Multiset Address) =
      x'.heap.live.val + (x.threads.loc t).owns + (x.threads.shared.items : Multiset Address)) :
    Owned x' := by
  have hsum := sum_update_add BufferLocals.owns x.threads.loc t l
  refine add_right_cancel (b := (x.threads.loc t).owns + (x.threads.shared.items : Multiset _)) ?_
  rw [hloc, ← add_assoc x'.heap.live.val, ← hbal, ← h, add_right_comm, ← add_assoc, hsum]
  abel

end Ownership

/-! ### The documents in the buffers -/

/-- A thread with its buffers, and the thread of `dump` with the documents in them. That one has
done with a document when it has taken it. -/
inductive Same (isValid : BSONObj → Bool) (h : Heap) : BufferLocals → Locals → Prop
  | reading (cursor : List BSONObj) : Same isValid h (.dumpMongod cursor none) (.dumpMongod cursor)
  | filled {d : BSONObj} {cursor : List BSONObj} {p : Address} : h.Holds p d →
      Same isValid h (.dumpMongod (d :: cursor) (some p)) (.dumpMongod (d :: cursor))
  | testing (total counter invalidCounter : Int32) (out : List UInt8) :
      Same isValid h (.dumpWriter total counter invalidCounter out .none)
        (.dumpWriter total counter invalidCounter out)
  | taken {total counter invalidCounter : Int32} {out : List UInt8} {p : Address} {d : BSONObj} :
      h.Holds p d →
      Same isValid h (.dumpWriter total counter invalidCounter out (.taken p))
        ((Locals.dumpWriter total counter invalidCounter out).resume isValid (some d))
  | written {total counter invalidCounter : Int32} {out : List UInt8} {p : Address} :
      p ∈ h.live →
      Same isValid h (.dumpWriter total counter invalidCounter out (.written p))
        (.dumpWriter total (counter + 1) invalidCounter out)

/-- A call with a buffer, and with the document in it. -/
inductive SameCall (h : Heap) : Call Address → Call BSONObj → Prop
  | put {p : Address} {d : BSONObj} : h.Holds p d → SameCall h (.put p) (.put d)
  | take : SameCall h .take .take

section Steps

variable {h : Heap} {l : BufferLocals} {l' : Locals} {m : Call Address} {m' : Call BSONObj}

theorem Same.call (hs : Same isValid h l l') (hm : l.call = some m) :
    ∃ m', l'.call = some m' ∧ SameCall h m m' := by
  cases hs with
  | reading cursor => cases hm
  | filled hp =>
    obtain rfl := Option.some.inj hm
    exact ⟨_, rfl, .put hp⟩
  | testing total counter invalidCounter out =>
    simp only [BufferLocals.call, Option.ite_none_right_eq_some, Option.some.injEq] at hm
    obtain ⟨hlt, rfl⟩ := hm
    exact ⟨.take, if_pos hlt, .take⟩
  | taken hp => cases hm
  | written hp => cases hm

/-- Whether a call waits depends on the number of elements only. -/
theorem SameCall.blockedOn_eq (hm : SameCall h m m') {q : CircularBuffer Address K}
    {q' : CircularBuffer BSONObj K} (hlen : q.items.length = q'.items.length) :
    (BoundedBlockingQueue.method m).blockedOn q =
      (BoundedBlockingQueue.method m').blockedOn q' := by
  cases hm with
  | put hp =>
    simp [BoundedBlockingQueue.method, BoundedBlockingQueue.put, Method.blockedOn,
      CircularBuffer.full, hlen]
  | take =>
    have hempty : q.empty = q'.empty := by
      rw [CircularBuffer.empty, CircularBuffer.empty, Bool.eq_iff_iff, List.isEmpty_iff,
        List.isEmpty_iff, ← List.length_eq_zero_iff, hlen, List.length_eq_zero_iff]
    simp [BoundedBlockingQueue.method, BoundedBlockingQueue.take, Method.blockedOn, hempty]

theorem SameCall.notify_eq (hm : SameCall h m m') :
    (BoundedBlockingQueue.method (K := K) m).notify =
      (BoundedBlockingQueue.method (K := K) m').notify := by
  cases hm <;> rfl

/-- The queue hands over a buffer with a document. -/
theorem Same.resume (hs : Same isValid h l l') {items items₁ : List Address}
    {items' items₁' : List BSONObj} {r : Option Address} {r' : Option BSONObj}
    (hm : l.call = some m) (hm' : l'.call = some m') (hitems : List.Forall₂ h.Holds items items')
    (hfifo : Fifo m items r items₁) (hfifo' : Fifo m' items' r' items₁') :
    Same isValid h (l.resume r) (l'.resume isValid r') ∧ List.Forall₂ h.Holds items₁ items₁' ∧
      (l.resume r).owns + (items₁ : Multiset Address) =
        l.owns + (items : Multiset Address) := by
  cases hs with
  | reading cursor => cases hm
  | @filled d cursor p hp =>
    obtain rfl := Option.some.inj hm
    obtain rfl := Option.some.inj hm'
    cases hfifo
    cases hfifo'
    -- The producer's buffer is the last one of the queue now.
    refine ⟨.reading cursor, List.rel_append hitems (.cons hp .nil), ?_⟩
    rw [← Multiset.coe_add, add_comm (items : Multiset Address), BufferLocals.resume,
      BufferLocals.owns, zero_add]
    rfl
  | testing total counter invalidCounter out =>
    simp only [BufferLocals.call, Locals.call, Option.ite_none_right_eq_some,
      Option.some.injEq] at hm hm'
    obtain ⟨-, rfl⟩ := hm
    obtain ⟨-, rfl⟩ := hm'
    cases hfifo
    cases hfifo'
    -- The writer has the first buffer of the queue.
    obtain ⟨hp, hrest⟩ := List.forall₂_cons.1 hitems
    refine ⟨.taken hp, hrest, ?_⟩
    rw [BufferLocals.owns, zero_add]
    rfl
  | taken hp => cases hm
  | written hp => cases hm

end Steps

/-- The dump with the documents themselves is where the dump with the buffers is. -/
structure Refines [DecidableEq S] (isValid : BSONObj → Bool) (x : BufferConfig K S)
    (c : DumpConfig K S) : Prop where
  aborted : c.aborted = x.threads.aborted
  status : c.status = x.threads.status
  items : List.Forall₂ x.heap.Holds x.threads.shared.items c.shared.items
  same : ∀ t, Same isValid x.heap (x.threads.loc t) (c.loc t)

section Simulation

variable [DecidableEq S] [Fintype S] {x x' : BufferConfig K S} {c : DumpConfig K S}

/-- A thread calls the queue. -/
theorem Refines.call (h : Refines isValid x c) (ho : Owned x) {a : Action (Option S)}
    {y : Config (CircularBuffer Address K) Cond (Call Address) (Option Address) BufferLocals
      (Option S)} (hs : (bufferSystem K).Step a x.threads y) :
    Owned { x with threads := y } ∧
      ∃ c', (dump K isValid).Step a c c' ∧ Refines isValid { x with threads := y } c' := by
  have hlen := h.items.length_eq
  cases hs with
  | @wait _ i m k hf hawake hm hb =>
    obtain ⟨m', hm', hmm⟩ := (h.same i).call hm
    refine ⟨ho, _, .wait (h.aborted.trans hf) (h.status ▸ hawake) hm'
      ((hmm.blockedOn_eq hlen).symm.trans hb), h.aborted, ?_, h.items, h.same⟩
    simp only [h.status]
  | @finish _ i m q r st hf hawake hm hb hbody hn =>
    obtain ⟨m', hm', hmm⟩ := (h.same i).call hm
    have hb' := (hmm.blockedOn_eq hlen).symm.trans hb
    obtain ⟨hfifo, -⟩ := BoundedBlockingQueue.fifo_of_body hb hbody
    obtain ⟨q', r', hbody', hfifo', -⟩ := BoundedBlockingQueue.fifo hb'
    obtain ⟨hsame, hitems, howns⟩ := (h.same i).resume hm hm' h.items hfifo hfifo'
    refine ⟨owned_update (t := i) ho rfl ?_, _, .finish (h.aborted.trans hf) (h.status ▸ hawake) hm'
      hb' hbody' ?_, rfl, rfl, hitems, fun t => ?_⟩
    · dsimp only
      rw [add_assoc, add_assoc]
      exact congrArg _ howns
    · rw [h.status]
      exact hmm.notify_eq ▸ hn
    · rcases eq_or_ne t i with rfl | hti
      · simp only [Function.update_self]
        exact hsame
      · simp only [Function.update_of_ne hti]
        exact h.same t
  | @abort _ i m hf hawake hm hb hbody =>
    obtain ⟨_, _, hbody', -⟩ := BoundedBlockingQueue.fifo hb
    cases hbody.symm.trans hbody'
  | @spurious _ i k hf hi =>
    refine ⟨ho, _, .spurious (h.aborted.trans hf) (h.status ▸ hi), h.aborted, ?_, h.items, h.same⟩
    simp only [h.status]

omit [Fintype S] [DecidableEq S] in
theorem Same.fill {h : Heap} {l : BufferLocals} {l' : Locals} (hs : Same isValid h l l')
    {p : Address} (hp : p ∉ h.live) (d : BSONObj) : Same isValid (h.fill p d) l l' := by
  cases hs with
  | reading cursor => exact .reading cursor
  | filled hq => exact .filled (hq.fill hp)
  | testing total counter invalidCounter out => exact .testing total counter invalidCounter out
  | taken hq => exact .taken (hq.fill hp)
  | written hq => exact .written (Finset.mem_insert_of_mem hq)

omit [Fintype S] [DecidableEq S] in
theorem Same.delete {h : Heap} {l : BufferLocals} {l' : Locals} (hs : Same isValid h l l')
    {p : Address} (hp : ∀ q ∈ l.owns, q ≠ p) : Same isValid (h.delete p) l l' := by
  cases hs with
  | reading cursor => exact .reading cursor
  | filled hq => exact .filled (hq.delete (hp _ (Multiset.mem_singleton_self _)))
  | testing total counter invalidCounter out => exact .testing total counter invalidCounter out
  | taken hq => exact .taken (hq.delete (hp _ (Multiset.mem_singleton_self _)))
  | written hq =>
    exact .written (Finset.mem_erase.2 ⟨hp _ (Multiset.mem_singleton_self _), hq⟩)

/-- A producer fills a buffer. -/
theorem Refines.fill (h : Refines isValid x c) (ho : Owned x) {s : S} {d : BSONObj}
    {cursor : List BSONObj} {p : Address}
    (hloc : x.threads.loc (some s) = .dumpMongod (d :: cursor) none) (hp : p ∉ x.heap.live) :
    Owned (x.set (some s) (.dumpMongod (d :: cursor) (some p)) (x.heap.fill p d)) ∧
      Refines isValid (x.set (some s) (.dumpMongod (d :: cursor) (some p)) (x.heap.fill p d))
        c := by
  refine ⟨owned_update (t := some s) ho rfl ?_, h.aborted, h.status,
    h.items.imp fun q e hq => hq.fill hp, fun t => ?_⟩
  · have hval : x.heap.live.val + {p} = (insert p x.heap.live).val + 0 := by
      rw [Finset.insert_val_of_notMem hp, add_zero, add_comm, Multiset.singleton_add]
    rw [hloc]
    exact congrArg (· + (x.threads.shared.items : Multiset Address)) hval
  · rcases eq_or_ne t (some s) with rfl | hts
    · have hs := h.same (some s)
      rw [hloc] at hs
      simp only [BufferConfig.set, Function.update_self]
      generalize hc : c.loc (some s) = l' at hs
      cases hs
      exact .filled (Heap.holds_fill ..)
    · simp only [BufferConfig.set, Function.update_of_ne hts]
      exact (h.same t).fill hp d

/-- The writer writes the bytes of a buffer. -/
theorem Refines.write (h : Refines isValid x c) (ho : Owned x)
    {total counter invalidCounter : Int32} {out : List UInt8} {p : Address}
    (hloc : x.threads.loc none = .dumpWriter total counter invalidCounter out (.taken p)) :
    Owned (x.set none ((x.threads.loc none).write isValid (x.heap.bytes p)) x.heap) ∧
      Refines isValid
        (x.set none ((x.threads.loc none).write isValid (x.heap.bytes p)) x.heap) c := by
  have howns : ((x.threads.loc none).write isValid (x.heap.bytes p)).owns = {p} := by
    rw [hloc, BufferLocals.write]
    split_ifs <;> rfl
  refine ⟨owned_update (t := none) ho rfl ?_, h.aborted, h.status, h.items, fun t => ?_⟩
  · rw [howns, hloc]
    rfl
  · rcases eq_or_ne t none with rfl | ht
    · have hs := h.same none
      rw [hloc] at hs
      simp only [BufferConfig.set, Function.update_self, hloc]
      generalize hc : c.loc none = l' at hs
      cases hs with
      | @taken _ _ _ _ _ d hp =>
        rw [BufferLocals.write, hp.2, Locals.resume]
        split_ifs with hvalid
        · exact .written hp.1
        · exact .written hp.1
    · simp only [BufferConfig.set, Function.update_of_ne ht]
      exact h.same t

/-- The writer deletes a buffer. -/
theorem Refines.delete (h : Refines isValid x c) (ho : Owned x)
    {total counter invalidCounter : Int32} {out : List UInt8} {p : Address}
    (hloc : x.threads.loc none = .dumpWriter total counter invalidCounter out (.written p)) :
    Owned (x.set none (x.threads.loc none).next (x.heap.delete p)) ∧
      Refines isValid (x.set none (x.threads.loc none).next (x.heap.delete p)) c := by
  have hp : p ∈ (x.threads.loc none).owns := by
    rw [hloc]
    exact Multiset.mem_singleton_self p
  refine ⟨owned_update (t := none) ho rfl ?_, h.aborted, h.status, ?_, fun t => ?_⟩
  · have hval : x.heap.live.val + 0 = (x.heap.live.erase p).val + {p} := by
      rw [Finset.erase_val, add_zero, add_comm, Multiset.singleton_add,
        Multiset.cons_erase (Finset.mem_def.1 (ho.mem_live hp))]
    rw [hloc]
    exact congrArg (· + (x.threads.shared.items : Multiset Address)) hval
  · have hitems := (List.forall₂_and_left _ _).2 ⟨fun q hq => ho.ne_of_mem hp hq, h.items⟩
    exact hitems.imp fun q e hq => hq.2.delete hq.1
  · rcases eq_or_ne t none with rfl | ht
    · have hs := h.same none
      rw [hloc] at hs
      simp only [BufferConfig.set, Function.update_self, hloc]
      generalize hc : c.loc none = l' at hs
      cases hs
      exact .testing ..
    · simp only [BufferConfig.set, Function.update_of_ne ht]
      exact (h.same t).delete fun q hq => ho.ne_of_ne ht.symm hp hq

/-- **The dump with the documents follows every step of the dump with the buffers**, and no buffer
is used that is not allocated. -/
theorem Refines.next (h : Refines isValid x c) (ho : Owned x) (hs : Step isValid x x') :
    x'.fault = false ∧ Owned x' ∧
      ∃ c', (c' = c ∨ ∃ a, (dump K isValid).Step a c c') ∧ Refines isValid x' c' := by
  cases hs with
  | call hf hs =>
    obtain ⟨ho', c', hs', h'⟩ := h.call ho hs
    exact ⟨hf, ho', c', Or.inr ⟨_, hs'⟩, h'⟩
  | fill hf _ hloc hp =>
    obtain ⟨ho', h'⟩ := h.fill ho hloc hp
    exact ⟨hf, ho', c, Or.inl rfl, h'⟩
  | write hf _ hloc _ =>
    obtain ⟨ho', h'⟩ := h.write ho hloc
    exact ⟨hf, ho', c, Or.inl rfl, h'⟩
  | delete hf _ hloc _ =>
    obtain ⟨ho', h'⟩ := h.delete ho hloc
    exact ⟨hf, ho', c, Or.inl rfl, h'⟩
  | @fault _ _ _ _ d p _ _ hloc hd hp =>
    refine absurd (ho.mem_live (t := none) ?_) hp
    rw [hloc]
    rcases hd with rfl | rfl <;> exact Multiset.mem_singleton_self p

theorem reaches_refines {bytes : Address → List UInt8}
    (hr : Reaches isValid (start K total cursors bytes) x) :
    x.fault = false ∧ Owned x ∧
      ∃ c, (dump K isValid).Reaches (dumpStart K total cursors) c ∧ Refines isValid x c := by
  induction hr with
  | refl =>
    refine ⟨rfl, ?_, _, Relation.ReflTransGen.refl, rfl, rfl, .nil, fun t => ?_⟩
    · have howns : ∀ t, ((start K total cursors bytes).threads.loc t).owns = 0 := by
        intro t
        cases t <;> rfl
      rw [Owned, Finset.sum_congr rfl fun t _ => howns t, Finset.sum_const_zero]
      rfl
    · cases t with
      | none => exact .testing ..
      | some s => exact .reading _
  | tail _ hs ih =>
    obtain ⟨-, ho, c, hc, h⟩ := ih
    obtain ⟨hf, ho', c', hstep, h'⟩ := h.next ho hs
    refine ⟨hf, ho', c', ?_, h'⟩
    rcases hstep with rfl | hstep
    · exact hc
    · exact hc.tail hstep

omit [DecidableEq S] in
/-- The producers, the writer and the queue have few buffers. -/
theorem Owned.card_le (ho : Owned x) : x.heap.live.card ≤ Fintype.card S + 1 + K := by
  have hone : ∀ l : BufferLocals, Multiset.card l.owns ≤ 1 := by
    intro l
    unfold BufferLocals.owns
    split <;> simp
  have hcard := congrArg Multiset.card ho
  rw [Multiset.card_add, Multiset.coe_card, Finset.card_val, Multiset.card_sum] at hcard
  have hthreads : ∑ t, Multiset.card (x.threads.loc t).owns ≤ Fintype.card (Option S) • 1 :=
    Finset.sum_le_card_nsmul _ _ _ fun t _ => hone _
  have hroom := x.threads.shared.length_le
  rw [Fintype.card_option, smul_eq_mul, mul_one] at hthreads
  omega

end Simulation

/-- The threads have returned: the cursors are at their end, and the writer has counted to
`total`. -/
structure Finished (total : Int32) (x : BufferConfig K S) : Prop where
  producer : ∀ s, x.threads.loc (some s) = .dumpMongod [] none
  writer : ∃ counter invalidCounter out,
    x.threads.loc none = .dumpWriter total counter invalidCounter out .none ∧ ¬ counter < total

section Results

variable [DecidableEq S] [Fintype S] {x : BufferConfig K S} {bytes : Address → List UInt8}

/-- **The threads use and delete only buffers that are allocated**, whatever the scheduler and the
allocator do. Every buffer has exactly one owner, a producer, the writer or the queue, so that
never more are allocated than there are producers, a writer and places in the queue; and the dump
with the documents themselves gets to the same place. -/
theorem buffers_safe (hr : Reaches isValid (start K total cursors bytes) x) :
    x.fault = false ∧ x.threads.aborted = false ∧
      ∑ t, (x.threads.loc t).owns + (x.threads.shared.items : Multiset Address) =
        x.heap.live.val ∧
      x.heap.live.card ≤ Fintype.card S + 1 + K ∧
      ∃ c, (dump K isValid).Reaches (dumpStart K total cursors) c ∧ Refines isValid x c := by
  obtain ⟨hf, ho, c, hc, h⟩ := reaches_refines hr
  exact ⟨hf, h.aborted.symm.trans (queue_exact hc).2, ho, ho.card_le, c, hc, h⟩

/-- **What is left in the end**: the buffers that are never deleted are those of the documents left
in the queue, as many as the cursors deliver more than the writer takes. -/
theorem buffers_left (hr : Reaches isValid (start K total cursors bytes) x)
    (hfin : Finished total x) :
    (x.threads.shared.items : Multiset Address) = x.heap.live.val ∧
      (x.heap.live.card : ℤ) = documents cursors - max 0 total.toInt := by
  obtain ⟨-, ho, c, hc, h⟩ := reaches_refines hr
  obtain ⟨counter, invalidCounter, out, hwriter, hdone⟩ := hfin.writer
  -- No thread has a buffer any more.
  have howns : ∀ t, (x.threads.loc t).owns = 0 := by
    intro t
    cases t with
    | none => rw [hwriter]; rfl
    | some s => rw [hfin.producer s]; rfl
  have hlive : (x.threads.shared.items : Multiset Address) = x.heap.live.val := by
    rw [← ho, Finset.sum_congr rfl fun t _ => howns t, Finset.sum_const_zero, zero_add]
  refine ⟨hlive, ?_⟩
  have hcard := congrArg Multiset.card hlive
  rw [Multiset.coe_card, Finset.card_val, h.items.length_eq] at hcard
  obtain ⟨unread, hbal⟩ := reaches_balance hc
  have hunread : ∀ s, unread s = 0 := by
    intro s
    rw [← hbal.producer_finished s]
    have hs := h.same (some s)
    rw [hfin.producer s] at hs
    generalize hl : c.loc (some s) = l at hs
    cases hs
    rw [System.Finished, hl]
    rfl
  have htaken : total.toInt ≤ (takes c.log).length := by
    rw [← hbal.writer_finished]
    have hs := h.same none
    rw [hwriter] at hs
    generalize hl : c.loc none = l at hs
    cases hs
    rw [System.Finished, hl]
    exact if_neg hdone
  have hsum := hbal.sum
  have hle := hbal.takes_le
  rw [Finset.sum_eq_zero fun s _ => hunread s] at hsum
  omega

end Results

/-- One document goes through a buffer at address `7`. -/
theorem reaches_oneDocument :
    ∃ x : BufferConfig 1 Unit,
      Reaches (fun _ => true) (start 1 1 oneDocument fun _ => []) x ∧ Finished 1 x := by
  have h0 : Reaches (fun _ => true) (start 1 1 oneDocument fun _ => [])
    (start 1 1 oneDocument fun _ => []) := .refl
  have h1 := h0.tail (.fill (s := ()) (p := 7) rfl rfl rfl (Finset.notMem_empty 7))
  have h2 := h1.tail (.call (a := .run (some ())) rfl
    (.finish rfl rfl rfl rfl rfl (.of_awake (fun i k => by cases i <;> nofun) _)))
  have h3 := h2.tail (.call (a := .run none) rfl
    (.finish rfl rfl rfl rfl rfl (.of_awake (fun i k => by cases i <;> nofun) _)))
  have h4 := h3.tail (.write rfl rfl rfl (Finset.mem_insert_self 7 ∅))
  exact ⟨_, h4.tail (.delete rfl rfl rfl (Finset.mem_insert_self 7 ∅)), fun _ => rfl, 1, 0,
    [5, 0, 0, 0, 0], rfl, by decide⟩

/-- A document that was not counted stays in its buffer. -/
theorem buffers_left_oneDocument :
    ∃ x : BufferConfig 1 Unit,
      Reaches (fun _ => true) (start 1 0 oneDocument fun _ => []) x ∧ Finished 0 x ∧
        (x.threads.shared.items : Multiset Address) = x.heap.live.val ∧
        (x.heap.live.card : ℤ) = 1 := by
  have h0 : Reaches (fun _ => true) (start 1 0 oneDocument fun _ => [])
    (start 1 0 oneDocument fun _ => []) := .refl
  have h1 := h0.tail (.fill (s := ()) (p := 7) rfl rfl rfl (Finset.notMem_empty 7))
  have h2 := h1.tail (.call (a := .run (some ())) rfl
    (.finish rfl rfl rfl rfl rfl (.of_awake (fun i k => by cases i <;> nofun) _)))
  have hfin : ∃ x : BufferConfig 1 Unit,
      Reaches (fun _ => true) (start 1 0 oneDocument fun _ => []) x ∧ Finished 0 x :=
    ⟨_, h2, fun _ => rfl, 0, 0, [], rfl, by decide⟩
  obtain ⟨x, hr, hfin⟩ := hfin
  obtain ⟨hitems, hcard⟩ := buffers_left hr hfin
  exact ⟨x, hr, hfin, hitems, hcard.trans (by decide)⟩

/-- The run of the only document is safe. -/
theorem buffers_safe_oneDocument :
    ∃ x : BufferConfig 1 Unit,
      Reaches (fun _ => true) (start 1 1 oneDocument fun _ => []) x ∧ Finished 1 x ∧
        x.fault = false ∧ x.heap.live.card ≤ 3 := by
  obtain ⟨x, hr, hfin⟩ := reaches_oneDocument
  obtain ⟨hf, -, -, hcard, -⟩ := buffers_safe hr
  exact ⟨x, hr, hfin, hf, hcard⟩

end Buffers

end Tools
end MongoUtils
