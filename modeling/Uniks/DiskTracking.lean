/-
  Requests in flight.

  A descriptor that is not free belongs to one request, and the descriptors of a request are chained
  the way the device follows them (`Owned`).  A request whose buffer is still marked has its head in
  one of three places, in the avail ring, with the device or in the used ring, and there once
  (`Flights`); so there are never more heads in a ring than descriptors, and both rings hold exactly
  what has been put in and not been taken out (`Rings`).  Whoever sleeps is on the list he is to be
  woken from (`Sleepers`).  These are the invariant; each step keeps them.
-/
import Uniks.VirtioDisk
import Mathlib.Data.List.Nodup
import Mathlib.Data.List.Perm.Subperm

namespace Uniks.VirtioDisk

open Uniks.Runs Uniks.IndexRing Uniks.WaitList
open Function (update update_idem update_self update_apply update_of_ne update_eq_self)

/-! ## The invariant -/

/-- The descriptors of a request. -/
structure Chain (d : DiskT) (r : Request) : Prop where
  nodup : r.index.Nodup
  small : ∀ i ∈ r.index, i < VIRTIO_DESC_NUM
  taken : ∀ i ∈ r.index, d.free i = false
  desc0 : d.desc r.i0 = r.desc0
  desc1 : d.desc r.i1 = r.desc1
  desc2 : d.desc r.i2 = r.desc2

/-- With its header and its buffer, as the device and the handler find them. -/
structure Chained (d : DiskT) (blkno : Buf → UInt32) (r : Request) : Prop extends Chain d r where
  op : d.ops r.i0 = r.op (blkno r.bb)
  info : (d.info r.i0).buf = some r.bb

/-- Every descriptor is free or belongs to one request. -/
structure Owned (d : DiskT) (blkno : Buf → UInt32) (flying : Pid → Request → Prop) : Prop where
  request : ∀ p r, flying p r → Chained d blkno r
  apart : ∀ p q r t i, flying p r → flying q t → i ∈ r.index → i ∈ t.index → p = q
  taken : ∀ i < VIRTIO_DESC_NUM, d.free i = false → ∃ p r, flying p r ∧ i ∈ r.index

/-- The heads that the driver waits for. -/
structure Flights (flying : Pid → Request → Prop) (bDisk : Buf → Bool) (unfinished : List Nat) :
    Prop where
  once : unfinished.Nodup
  head : ∀ i ∈ unfinished, ∃ p r, flying p r ∧ r.i0 = i ∧ bDisk r.bb = true
  there : ∀ p r, flying p r → bDisk r.bb = true → r.i0 ∈ unfinished
  busy : ∀ bb, bDisk bb = true → ∃ p r, flying p r ∧ r.bb = bb

/-- What lies in the rings. -/
structure Rings (d : DiskT) (devIndex : UInt16) (submitted : List Nat)
    (reported : List VirtqUsedElem) : Prop where
  avail : Holds d.avail.ring VIRTIO_DESC_NUM devIndex d.avail.index submitted
  used : Holds d.used.ring VIRTIO_DESC_NUM d.usedIndex d.used.index reported
  status : ∀ e ∈ reported, (d.info e.id).status = 0

/-- Who sleeps, and where. -/
structure Sleepers (blocked : Pid → Bool) (waitList : List Pid) (diskWait : Buf → List Pid)
    (place : Pid → Place) (bDisk : Buf → Bool) : Prop where
  queued : Queued blocked waitList
  queuedDisk : ∀ bb, Queued blocked (diskWait bb)
  allocating : ∀ p ∈ waitList, ∃ bb write, place p = .allocating bb write
  waiting : ∀ bb, ∀ p ∈ diskWait bb, ∃ r, place p = .waiting r ∧ r.bb = bb
  asleep : ∀ p, blocked p = true → p ∈ waitList ∨ ∃ r, place p = .waiting r ∧ p ∈ diskWait r.bb
  done : ∀ bb, bDisk bb = false → diskWait bb = []

/-- The buffer that a process uses. -/
def Place.buf : Place → Option Buf
  | .outside => none
  | .allocating bb _ => some bb
  | .waiting r => some r.bb

def State.flying (s : State) (p : Pid) (r : Request) : Prop := s.place p = .waiting r
def State.blkno (s : State) (bb : Buf) : UInt32 := (s.buf bb).bBlkno
def State.bDisk (s : State) (bb : Buf) : Bool := (s.buf bb).bDisk
def State.diskWait (s : State) (bb : Buf) : List Pid := (s.buf bb).diskWaitList

/-- The heads of the requests that the handler has not seen yet. -/
def State.unfinished (s : State) : List Nat :=
  s.submitted ++ s.outstanding ++ s.reported.map VirtqUsedElem.id

structure Inv (s : State) : Prop where
  owned : Owned s.disk s.blkno s.flying
  flights : Flights s.flying s.bDisk s.unfinished
  rings : Rings s.disk s.devIndex s.submitted s.reported
  sleepers : Sleepers s.blocked s.disk.waitList s.diskWait s.place s.bDisk
  locked : ∀ p bb, (s.place p).buf = some bb → s.owner bb = some p
  awake : ∀ p, s.handler = some (some p) → s.blocked p = false

variable {s s' : State} {p q : Pid} {r t : Request} {bb : Buf} {i : Nat} {js : List Nat}

theorem start_inv : Inv start where
  owned := ⟨fun _ _ h => (nomatch h), fun _ _ _ _ _ h => (nomatch h), fun _ _ h => (nomatch h)⟩
  flights := ⟨List.nodup_nil, fun _ h => (nomatch h), fun _ _ h => (nomatch h),
    fun _ h => (nomatch h)⟩
  rings := ⟨.nil _ _ 0, .nil _ _ 0, fun _ h => (nomatch h)⟩
  sleepers := ⟨.nil _, fun _ => .nil _, fun _ h => (nomatch h), fun _ _ h => (nomatch h),
    fun _ h => (nomatch h), fun _ _ => rfl⟩
  locked _ _ h := nomatch h
  awake _ h := nomatch h

/-! ## What the parts depend on -/

/-- A chain is not touched by what happens to other descriptors. -/
theorem Chained.congr {d d' : DiskT} {blkno blkno' : Buf → UInt32} (h : Chained d blkno r)
    (hfree : ∀ i ∈ r.index, d'.free i = d.free i) (hdesc : ∀ i ∈ r.index, d'.desc i = d.desc i)
    (hop : d'.ops r.i0 = d.ops r.i0) (hinfo : (d'.info r.i0).buf = (d.info r.i0).buf)
    (hblkno : blkno' r.bb = blkno r.bb) : Chained d' blkno' r where
  nodup := h.nodup
  small := h.small
  taken i hi := (hfree i hi).trans (h.taken i hi)
  desc0 := (hdesc r.i0 (by simp [Request.index])).trans h.desc0
  desc1 := (hdesc r.i1 (by simp [Request.index])).trans h.desc1
  desc2 := (hdesc r.i2 (by simp [Request.index])).trans h.desc2
  op := by rw [hop, hblkno]; exact h.op
  info := hinfo.trans h.info

theorem Owned.congr {d d' : DiskT} {blkno blkno' : Buf → UInt32} {flying : Pid → Request → Prop}
    (h : Owned d blkno flying) (hfree : d'.free = d.free)
    (hdesc : ∀ i, d.free i = false → d'.desc i = d.desc i) (hop : d'.ops = d.ops)
    (hinfo : ∀ i, (d'.info i).buf = (d.info i).buf)
    (hblkno : ∀ p r, flying p r → blkno' r.bb = blkno r.bb) : Owned d' blkno' flying where
  request p r hp := (h.request p r hp).congr (fun _ _ => congrFun hfree _)
    (fun i hi => hdesc i ((h.request p r hp).taken i hi)) (congrFun hop _) (hinfo _) (hblkno p r hp)
  apart := h.apart
  taken i hi hfree' := h.taken i hi (hfree ▸ hfree')

/-- A field of the buffers after one of them has changed. -/
theorem field_update {β : Type} (f : Blkbuf → β) (buf : Buf → Blkbuf) (bb : Buf) (b : Blkbuf) :
    (fun c => f (update buf bb b c)) = update (fun c => f (buf c)) bb (f b) :=
  Function.comp_update f buf bb b

theorem field_same {β : Type} (f : Blkbuf → β) (buf : Buf → Blkbuf) (bb : Buf) (b : Blkbuf)
    (h : f b = f (buf bb)) : (fun c => f (update buf bb b c)) = fun c => f (buf c) := by
  rw [field_update, h]
  exact update_eq_self bb fun c => f (buf c)

/-- Only those in flight matter. -/
theorem flying_update (place : Pid → Place) (pl : Place) (h : ∀ r, place p ≠ .waiting r)
    (hpl : ∀ r, pl ≠ .waiting r) :
    (fun q r => update place p pl q = .waiting r) = fun q r => place q = .waiting r := by
  funext q r
  by_cases hq : q = p
  · subst hq
    rw [update_self]
    exact propext ⟨fun heq => absurd heq (hpl r), fun heq => absurd heq (h r)⟩
  · rw [update_of_ne hq]

theorem index_mem_i0 (r : Request) : r.i0 ∈ r.index := List.mem_cons_self

/-- A process is told by the head of its request. -/
theorem Owned.head_inj {d : DiskT} {blkno : Buf → UInt32} (h : Owned d blkno s.flying)
    (hp : s.flying p r) (hq : s.flying q t) (heq : r.i0 = t.i0) : p = q ∧ r = t := by
  have hpq : p = q := h.apart p q r t r.i0 hp hq (index_mem_i0 r) (heq ▸ index_mem_i0 t)
  subst hpq
  exact ⟨rfl, Place.waiting.inj (hp.symm.trans hq)⟩

/-- Nobody else is in flight with the same buffer. -/
theorem Inv.buf_inj (h : Inv s) (hp : s.flying p r) (hq : s.flying q t) (heq : r.bb = t.bb) :
    p = q ∧ r = t := by
  have hr : s.owner r.bb = some p := h.locked p r.bb (by rw [show s.place p = _ from hp]; rfl)
  have ht : s.owner t.bb = some q := h.locked q t.bb (by rw [show s.place q = _ from hq]; rfl)
  rw [heq, ht] at hr
  cases hr
  exact ⟨rfl, Place.waiting.inj (hp.symm.trans hq)⟩

theorem Inv.unfinished_small (h : Inv s) (hi : i ∈ s.unfinished) : i < VIRTIO_DESC_NUM := by
  obtain ⟨p, r, hp, rfl, -⟩ := h.flights.head i hi
  exact (h.owned.request p r hp).small _ (index_mem_i0 r)

/-! ## Sleeping and waking -/

section Sleeping

variable {blocked : Pid → Bool} {waitList : List Pid} {diskWait : Buf → List Pid}
  {place : Pid → Place} {bDisk : Buf → Bool}

/-- The two kinds of lists are apart. -/
theorem Sleepers.kinds (h : Sleepers blocked waitList diskWait place bDisk) (hp : p ∈ waitList) :
    p ∉ diskWait bb := by
  intro hmem
  obtain ⟨c, write, hplace⟩ := h.allocating p hp
  obtain ⟨r, hr, -⟩ := h.waiting bb p hmem
  rw [hplace] at hr
  cases hr

/-- And so are those of two buffers. -/
theorem Sleepers.bufs (h : Sleepers blocked waitList diskWait place bDisk) {c : Buf}
    (hp : p ∈ diskWait c) (hne : c ≠ bb) : p ∉ diskWait bb := by
  intro hmem
  obtain ⟨r, hr, rfl⟩ := h.waiting c p hp
  obtain ⟨t, ht, rfl⟩ := h.waiting bb p hmem
  rw [hr] at ht
  exact hne (congrArg Request.bb (Place.waiting.inj ht))

theorem Sleepers.outside (h : Sleepers blocked waitList diskWait place bDisk)
    (hp : place p = .outside) : blocked p = false := by
  by_contra hsleep
  rcases h.asleep p (Bool.not_eq_false _ ▸ hsleep) with hmem | ⟨r, hr, -⟩
  · obtain ⟨c, write, hplace⟩ := h.allocating p hmem
    rw [hp] at hplace
    cases hplace
  · rw [hp] at hr
    cases hr

/-- A process that runs goes somewhere else. -/
theorem Sleepers.goto (h : Sleepers blocked waitList diskWait place bDisk)
    (hp : blocked p = false) (pl : Place) :
    Sleepers blocked waitList diskWait (update place p pl) bDisk := by
  have hsame : ∀ q, blocked q = true → update place p pl q = place q := by
    intro q hq
    have hne : q ≠ p := by
      rintro rfl
      rw [hp] at hq
      cases hq
    exact update_of_ne hne _ _
  refine ⟨h.queued, h.queuedDisk, fun q hq => ?_, fun c q hq => ?_, fun q hq => ?_, h.done⟩
  · rw [hsame q (h.queued.asleep q hq)]
    exact h.allocating q hq
  · rw [hsame q ((h.queuedDisk c).asleep q hq)]
    exact h.waiting c q hq
  · rw [hsame q hq]
    exact h.asleep q hq

/-- A process finds no three descriptors. -/
theorem Sleepers.blockAlloc (h : Sleepers blocked waitList diskWait place bDisk)
    (hp : blocked p = false) {write : Bool} (hplace : place p = .allocating bb write) :
    Sleepers (update blocked p true) (p :: waitList) diskWait place bDisk := by
  refine ⟨h.queued.block hp, fun c => (h.queuedDisk c).blockOther, fun q hq => ?_, h.waiting,
    fun q hq => ?_, h.done⟩
  · rcases List.mem_cons.mp hq with rfl | hq
    · exact ⟨bb, write, hplace⟩
    · exact h.allocating q hq
  · by_cases hqp : q = p
    · exact .inl (hqp ▸ List.mem_cons_self)
    · rw [update_of_ne hqp] at hq
      exact (h.asleep q hq).imp_left (List.mem_cons_of_mem p)

/-- A process waits for its buffer. -/
theorem Sleepers.blockDisk (h : Sleepers blocked waitList diskWait place bDisk)
    (hp : blocked p = false) (hplace : place p = .waiting r) (hbusy : bDisk r.bb = true) :
    Sleepers (update blocked p true) waitList
      (update diskWait r.bb (p :: diskWait r.bb)) place bDisk := by
  refine ⟨h.queued.blockOther, fun c => ?_, h.allocating, fun c q hq => ?_, fun q hq => ?_,
    fun c hc => ?_⟩
  · by_cases hc : c = r.bb
    · subst hc
      rw [update_self]
      exact (h.queuedDisk r.bb).block hp
    · rw [update_of_ne hc]
      exact (h.queuedDisk c).blockOther
  · by_cases hc : c = r.bb
    · subst hc
      rw [update_self] at hq
      rcases List.mem_cons.mp hq with rfl | hq
      · exact ⟨r, hplace, rfl⟩
      · exact h.waiting r.bb q hq
    · rw [update_of_ne hc] at hq
      exact h.waiting c q hq
  · by_cases hqp : q = p
    · subst hqp
      refine .inr ⟨r, hplace, ?_⟩
      rw [update_self]
      exact List.mem_cons_self
    · rw [update_of_ne hqp] at hq
      refine (h.asleep q hq).imp_right ?_
      rintro ⟨t, ht, hmem⟩
      refine ⟨t, ht, ?_⟩
      by_cases htb : t.bb = r.bb
      · rw [htb, update_self]
        exact List.mem_cons_of_mem p (htb ▸ hmem)
      · rw [update_of_ne htb]
        exact hmem
  · have hne : c ≠ r.bb := by
      rintro rfl
      rw [hbusy] at hc
      cases hc
    rw [update_of_ne hne]
    exact h.done c hc

/-- A buffer is marked. -/
theorem Sleepers.mark (h : Sleepers blocked waitList diskWait place bDisk) (bb : Buf) :
    Sleepers blocked waitList diskWait place (update bDisk bb true) := by
  refine ⟨h.queued, h.queuedDisk, h.allocating, h.waiting, h.asleep, fun c hc => ?_⟩
  have hne : c ≠ bb := by
    rintro rfl
    rw [update_self] at hc
    cases hc
  rw [update_of_ne hne] at hc
  exact h.done c hc

/-- Everybody who waits for descriptors wakes up. -/
theorem Sleepers.wakeAlloc (h : Sleepers blocked waitList diskWait place bDisk) :
    Sleepers (awaken waitList blocked) [] diskWait place bDisk := by
  refine ⟨.nil _, fun c => (h.queuedDisk c).awaken fun q hq hmem => h.kinds hmem hq,
    fun q hq => (nomatch hq), h.waiting, fun q hq => ?_, h.done⟩
  by_cases hmem : q ∈ waitList
  · rw [awaken_mem hmem] at hq
    cases hq
  · rw [awaken_not_mem hmem] at hq
    exact .inr ((h.asleep q hq).resolve_left hmem)

/-- Everybody who waits for a buffer wakes up. -/
theorem Sleepers.wakeDisk (h : Sleepers blocked waitList diskWait place bDisk) (bb : Buf) :
    Sleepers (awaken (diskWait bb) blocked) waitList (update diskWait bb []) place
      (update bDisk bb false) := by
  refine ⟨h.queued.awaken fun q hq => h.kinds hq, fun c => ?_, h.allocating, fun c q hq => ?_,
    fun q hq => ?_, fun c hc => ?_⟩
  · by_cases hc : c = bb
    · subst hc
      rw [update_self]
      exact .nil _
    · rw [update_of_ne hc]
      exact (h.queuedDisk c).awaken fun q hq => h.bufs hq hc
  · by_cases hc : c = bb
    · subst hc
      rw [update_self] at hq
      cases hq
    · rw [update_of_ne hc] at hq
      exact h.waiting c q hq
  · by_cases hmem : q ∈ diskWait bb
    · rw [awaken_mem hmem] at hq
      cases hq
    · rw [awaken_not_mem hmem] at hq
      refine (h.asleep q hq).imp_right ?_
      rintro ⟨r, hr, hmem'⟩
      refine ⟨r, hr, ?_⟩
      have hne : r.bb ≠ bb := by
        rintro rfl
        exact hmem hmem'
      rw [update_of_ne hne]
      exact hmem'
  · by_cases hcb : c = bb
    · subst hcb
      exact update_self ..
    · rw [update_of_ne hcb] at hc ⊢
      exact h.done c hc

end Sleeping

/-! ## Descriptors -/

/-- Descriptors are taken. -/
def State.marked (s : State) (js : List Nat) : State :=
  { s with disk := { s.disk with free := fun i => if i ∈ js then false else s.disk.free i } }

theorem marked_nil (s : State) : s.marked [] = s := by
  have hfun : (fun i => if i ∈ ([] : List Nat) then false else s.disk.free i) = s.disk.free := by
    funext i
    exact if_neg List.not_mem_nil
  rw [State.marked, hfun]

/-- Descriptors are freed, and those who wait for some wake up. -/
def State.freed (s : State) (js : List Nat) : State :=
  if js = [] then s
  else { s with
    disk := { s.disk with
      desc := fun i => if i ∈ js then .zero else s.disk.desc i
      free := fun i => if i ∈ js then true else s.disk.free i
      waitList := [] }
    blocked := WaitList.awaken s.disk.waitList s.blocked }

theorem freed_desc (s : State) (hi : i ∉ js) : (s.freed js).disk.desc i = s.disk.desc i := by
  unfold State.freed
  split
  · rfl
  · exact if_neg hi

theorem freed_free (s : State) (js : List Nat) (i : Nat) :
    (s.freed js).disk.free i = if i ∈ js then true else s.disk.free i := by
  unfold State.freed
  by_cases hjs : js = []
  · subst hjs
    rw [if_pos rfl, if_neg List.not_mem_nil]
  · rw [if_neg hjs]

theorem free1Descriptor_eq (hq : Queued s.blocked s.disk.waitList) (hp : s.blocked p = false)
    (hi : i < VIRTIO_DESC_NUM) (hfree : s.disk.free i = false) :
    free1Descriptor p s i = some (s.freed [i]) := by
  have hblocked : procUnblockAll (some p) s.disk.waitList s.blocked
      = some (WaitList.awaken s.disk.waitList s.blocked) :=
    hq.unblockAll fun q hpq => by rw [← Option.some.inj hpq]; exact hp
  have hdesc : update s.disk.desc i .zero
      = fun j => if j ∈ [i] then .zero else s.disk.desc j := by
    funext j
    simp only [update_apply, List.mem_singleton]
  have hmark : update s.disk.free i true
      = fun j => if j ∈ [i] then true else s.disk.free j := by
    funext j
    simp only [update_apply, List.mem_singleton]
  unfold free1Descriptor
  rw [if_pos ⟨hi, hfree⟩]
  dsimp only
  rw [hblocked, hdesc, hmark, State.freed, if_neg (List.cons_ne_nil i [])]
  rfl

/-- One after the other is all at once. -/
theorem freed_cons (s : State) (i : Nat) (js : List Nat) :
    (s.freed [i]).freed js = s.freed (i :: js) := by
  by_cases hjs : js = []
  · subst hjs
    rfl
  · have hawake : ∀ f : Pid → Bool, WaitList.awaken [] f = f := fun f => by
      funext q
      exact if_neg List.not_mem_nil
    have hor : ∀ {β : Type} (j : Nat) (x y : β),
        (if j ∈ js then x else if j ∈ [i] then x else y) = if j ∈ i :: js then x else y := by
      intro β j x y
      simp only [List.mem_cons, List.not_mem_nil, or_false]
      split
      next hj => rw [if_pos (.inr hj)]
      next hj =>
        by_cases hji : j = i
        · rw [if_pos hji, if_pos (.inl hji)]
        · rw [if_neg hji, if_neg (by rintro (h | h) <;> contradiction)]
    unfold State.freed
    rw [if_neg hjs, if_neg (List.cons_ne_nil i []), if_neg (List.cons_ne_nil i js)]
    simp only [hor, hawake]

theorem freed_place (s : State) (js : List Nat) : (s.freed js).place = s.place := by
  unfold State.freed
  split <;> rfl

theorem freed_handler (s : State) (js : List Nat) : (s.freed js).handler = s.handler := by
  unfold State.freed
  split <;> rfl

theorem freed_submitted (s : State) (js : List Nat) : (s.freed js).submitted = s.submitted := by
  unfold State.freed
  split <;> rfl

theorem freed_queued (h : Queued s.blocked s.disk.waitList) (js : List Nat) :
    Queued (s.freed js).blocked (s.freed js).disk.waitList := by
  unfold State.freed
  split
  · exact h
  · exact .nil _

theorem freed_awake (hp : s.blocked p = false) (js : List Nat) :
    (s.freed js).blocked p = false := by
  unfold State.freed
  split
  · exact hp
  · exact awaken_awake hp

/-- The inner loop of `alloc3_desc`. -/
theorem giveBack_eq (hq : Queued s.blocked s.disk.waitList) (hp : s.blocked p = false)
    (hnodup : js.Nodup) (hjs : ∀ j ∈ js, j < VIRTIO_DESC_NUM ∧ s.disk.free j = false) :
    giveBack p js s = some (s.freed js) := by
  induction js generalizing s with
  | nil => rfl
  | cons i js ih =>
    obtain ⟨hi, hfree⟩ := hjs i List.mem_cons_self
    have hrest : ∀ j ∈ js, j < VIRTIO_DESC_NUM ∧ (s.freed [i]).disk.free j = false := by
      intro j hj
      have hne : j ∉ [i] := by
        rw [List.mem_singleton]
        rintro rfl
        exact (List.nodup_cons.mp hnodup).1 hj
      rw [freed_free, if_neg hne]
      exact hjs j (List.mem_cons_of_mem i hj)
    rw [giveBack, free1Descriptor_eq hq hp hi hfree, Option.bind_some,
      ih (freed_queued hq [i]) (freed_awake hp [i]) (List.nodup_cons.mp hnodup).2 hrest, freed_cons]

/-- A turn of `free_descriptor_list`. -/
theorem freeDescriptorList_succ (hq : Queued s.blocked s.disk.waitList) (hp : s.blocked p = false)
    (hi : i < VIRTIO_DESC_NUM) (hfree : s.disk.free i = false) (turns : Nat) :
    freeDescriptorList p (turns + 1) s i =
      if (s.disk.desc i).flags &&& VRING_DESC_F_NEXT ≠ 0 then
        freeDescriptorList p turns (s.freed [i]) (s.disk.desc i).next
      else some (s.freed [i]) := by
  rw [freeDescriptorList, free1Descriptor_eq hq hp hi hfree]
  rfl

theorem desc0_flags (r : Request) : r.desc0.flags &&& VRING_DESC_F_NEXT ≠ 0 := by
  show VRING_DESC_F_NEXT &&& VRING_DESC_F_NEXT ≠ 0
  decide

theorem desc1_flags (r : Request) : r.desc1.flags &&& VRING_DESC_F_NEXT ≠ 0 := by
  show (dirFlag r.write ||| VRING_DESC_F_NEXT) &&& VRING_DESC_F_NEXT ≠ 0
  cases r.write <;> decide

theorem desc2_flags (r : Request) : ¬ r.desc2.flags &&& VRING_DESC_F_NEXT ≠ 0 := by
  show ¬ VRING_DESC_F_WRITE &&& VRING_DESC_F_NEXT ≠ 0
  decide

theorem index_ne (h : r.index.Nodup) : r.i1 ∉ [r.i0] ∧ r.i2 ∉ [r.i0] ∧ r.i2 ∉ [r.i1] := by
  have hnodup : [r.i0, r.i1, r.i2].Nodup := h
  simp only [List.nodup_cons, List.mem_cons, List.not_mem_nil, or_false, not_or] at hnodup
  obtain ⟨⟨h01, h02⟩, h12, -⟩ := hnodup
  simp only [List.mem_singleton]
  exact ⟨Ne.symm h01, Ne.symm h02, Ne.symm h12⟩

/-- `free_descriptor_list` follows the chain of a request. -/
theorem freeDescriptorList_eq (h : Chain s.disk r) (hq : Queued s.blocked s.disk.waitList)
    (hp : s.blocked p = false) :
    freeDescriptorList p VIRTIO_DESC_NUM s r.i0 = some (s.freed r.index) := by
  obtain ⟨h10, h20, h21⟩ := index_ne h.nodup
  have hi0 : r.i0 ∈ r.index := index_mem_i0 r
  have hi1 : r.i1 ∈ r.index := List.mem_cons_of_mem _ List.mem_cons_self
  have hi2 : r.i2 ∈ r.index := List.mem_cons_of_mem _ (List.mem_cons_of_mem _ List.mem_cons_self)
  have hq' := freed_queued hq [r.i0]
  have hp' := freed_awake hp [r.i0]
  have hq'' := freed_queued hq' [r.i1]
  have hp'' := freed_awake hp' [r.i1]
  have hfree1 : (s.freed [r.i0]).disk.free r.i1 = false := by
    rw [freed_free, if_neg h10]
    exact h.taken _ hi1
  have hfree2 : ((s.freed [r.i0]).freed [r.i1]).disk.free r.i2 = false := by
    rw [freed_free, if_neg h21, freed_free, if_neg h20]
    exact h.taken _ hi2
  rw [freeDescriptorList_succ hq hp (h.small _ hi0) (h.taken _ hi0), h.desc0, if_pos (desc0_flags r),
    show r.desc0.next = r.i1 from rfl, freeDescriptorList_succ hq' hp' (h.small _ hi1) hfree1,
    freed_desc s h10, h.desc1, if_pos (desc1_flags r), show r.desc1.next = r.i2 from rfl,
    freeDescriptorList_succ hq'' hp'' (h.small _ hi2) hfree2, freed_desc _ h21, freed_desc s h20,
    h.desc2, if_neg (desc2_flags r), freed_cons, freed_cons]
  rfl

/-! ## Taking three descriptors -/

theorem allocDesc_some {free : Nat → Bool} (h : allocDesc free = some i) :
    i < VIRTIO_DESC_NUM ∧ free i = true := by
  have hmem := List.mem_of_find?_eq_some h
  exact ⟨List.mem_range.mp hmem, List.find?_some h⟩

/-- The loop of `alloc3_desc` takes as many descriptors as it is to take, or gives back what it has
    taken. -/
theorem allocTurns_spec {turns : Nat} (hq : Queued s.blocked s.disk.waitList)
    (hp : s.blocked p = false) (hjs : js.Nodup)
    (hfree : ∀ j ∈ js, j < VIRTIO_DESC_NUM ∧ s.disk.free j = true) :
    ∃ ks, (js ++ ks).Nodup ∧ (∀ j ∈ js ++ ks, j < VIRTIO_DESC_NUM ∧ s.disk.free j = true) ∧
      (ks.length = turns ∧
          allocTurns p turns js (s.marked js) = some (s.marked (js ++ ks), some (js ++ ks)) ∨
        allocTurns p turns js (s.marked js) = some ((s.marked (js ++ ks)).freed (js ++ ks), none)) := by
  induction turns generalizing js with
  | zero =>
    refine ⟨[], ?_⟩
    rw [List.append_nil]
    exact ⟨hjs, hfree, .inl ⟨rfl, rfl⟩⟩
  | succ turns ih =>
    unfold allocTurns
    cases halloc : allocDesc (s.marked js).disk.free with
    | none =>
      refine ⟨[], ?_⟩
      rw [List.append_nil]
      refine ⟨hjs, hfree, .inr ?_⟩
      have hgive := giveBack_eq (s := s.marked js) hq hp hjs fun j hj =>
        ⟨(hfree j hj).1, if_pos hj⟩
      show (giveBack p js (s.marked js)).map _ = _
      rw [hgive]
      rfl
    | some i =>
      obtain ⟨hi, hfree'⟩ := allocDesc_some halloc
      have hout : i ∉ js := by
        intro hmem
        have hmarked : (s.marked js).disk.free i = false := if_pos hmem
        rw [hmarked] at hfree'
        cases hfree'
      have hwas : s.disk.free i = true := by
        have hsame : (s.marked js).disk.free i = s.disk.free i := if_neg hout
        rwa [hsame] at hfree'
      have hnext : { s.marked js with disk := { (s.marked js).disk with
          free := update (s.marked js).disk.free i false } } = s.marked (js ++ [i]) := by
        have hfun : update (s.marked js).disk.free i false
            = fun j => if j ∈ js ++ [i] then false else s.disk.free j := by
          funext j
          by_cases hj : j = i
          · subst hj
            rw [update_self, if_pos (List.mem_append_right js List.mem_cons_self)]
          · rw [update_of_ne hj]
            simp only [State.marked, List.mem_append, List.mem_singleton, hj, or_false]
        rw [hfun]
        rfl
      have hnodup : (js ++ [i]).Nodup := by
        rw [List.nodup_append]
        refine ⟨hjs, List.nodup_singleton i, fun a ha b hb => ?_⟩
        rw [List.mem_singleton.mp hb]
        rintro rfl
        exact hout ha
      obtain ⟨ks, hks, hall, hrun⟩ := ih hnodup fun j hj => by
        rcases List.mem_append.mp hj with hj | hj
        · exact hfree j hj
        · rw [List.mem_singleton.mp hj]
          exact ⟨hi, hwas⟩
      have hassoc : js ++ [i] ++ ks = js ++ i :: ks := by rw [List.append_assoc]; rfl
      rw [hassoc] at hks hall hrun
      refine ⟨i :: ks, hks, hall, ?_⟩
      show _ ∧ allocTurns p turns (js ++ [i]) _ = _ ∨ allocTurns p turns (js ++ [i]) _ = _
      rw [hnext]
      rcases hrun with ⟨hlen, hrun⟩ | hrun
      · exact .inl ⟨congrArg Nat.succ hlen, hrun⟩
      · exact .inr hrun

theorem alloc3Desc_spec (hq : Queued s.blocked s.disk.waitList) (hp : s.blocked p = false) :
    ∃ js, js.Nodup ∧ (∀ j ∈ js, j < VIRTIO_DESC_NUM ∧ s.disk.free j = true) ∧
      (js.length = 3 ∧ alloc3Desc p s = some (s.marked js, some js) ∨
        alloc3Desc p s = some ((s.marked js).freed js, none)) := by
  have hspec := @allocTurns_spec s p [] 3 hq hp List.nodup_nil fun j hj => nomatch hj
  simp only [List.nil_append, marked_nil] at hspec
  exact hspec

/-! ## Locks and calls -/

theorem Inv.lock (h : Inv s) {blkno : UInt32} (hfree : s.owner bb = none) :
    Inv { s with
      owner := update s.owner bb (some p)
      buf := update s.buf bb { s.buf bb with bBlkno := blkno } } := by
  -- nobody is in flight with the buffer
  have hother : ∀ q c, (s.place q).buf = some c → c ≠ bb := by
    rintro q c hc rfl
    have howner := h.locked q c hc
    rw [hfree] at howner
    cases howner
  have hdisk := field_same Blkbuf.bDisk s.buf bb { s.buf bb with bBlkno := blkno } rfl
  have hwait := field_same Blkbuf.diskWaitList s.buf bb { s.buf bb with bBlkno := blkno } rfl
  refine ⟨?_, ?_, h.rings, ?_, fun q c hc => ?_, h.awake⟩
  · refine h.owned.congr rfl (fun _ _ => rfl) rfl (fun _ => rfl) fun q r hr => ?_
    have hne : r.bb ≠ bb := hother q r.bb (by rw [show s.place q = _ from hr]; rfl)
    exact congrArg Blkbuf.bBlkno (update_of_ne hne _ _)
  · have hflights := h.flights
    unfold State.bDisk at hflights ⊢
    rw [hdisk]
    exact hflights
  · have hsleepers := h.sleepers
    unfold State.bDisk State.diskWait at hsleepers ⊢
    rw [hdisk, hwait]
    exact hsleepers
  · exact (update_of_ne (hother q c hc) _ _).trans (h.locked q c hc)

theorem Inv.unlock (h : Inv s) (howner : s.owner bb = some p) (hp : s.place p = .outside) :
    Inv { s with owner := update s.owner bb none } := by
  refine ⟨h.owned, h.flights, h.rings, h.sleepers, fun q c hc => ?_, h.awake⟩
  have hne : c ≠ bb := by
    rintro rfl
    have hq := h.locked q c hc
    rw [howner] at hq
    cases hq
    have hc : (s.place p).buf = some c := hc
    rw [hp] at hc
    cases hc
  exact (update_of_ne hne _ _).trans (h.locked q c hc)

theorem Inv.call (h : Inv s) {write : Bool} (howner : s.owner bb = some p)
    (hp : s.place p = .outside) :
    Inv { s with place := update s.place p (.allocating bb write) } := by
  have hflying := flying_update s.place (.allocating bb write)
    (fun r => by rw [hp]; intro h; cases h) (fun r h => by cases h)
  have howned := h.owned
  have hflights := h.flights
  refine ⟨?_, ?_, h.rings, h.sleepers.goto (h.sleepers.outside hp) _, fun q c hc => ?_, h.awake⟩
  · unfold State.flying at howned ⊢
    rw [hflying]
    exact howned
  · unfold State.flying at hflights ⊢
    rw [hflying]
    exact hflights
  · by_cases hq : q = p
    · subst hq
      have hc : (update s.place q (.allocating bb write) q).buf = some c := hc
      rw [update_self] at hc
      rw [← Option.some.inj hc]
      exact howner
    · have hc : (update s.place p (.allocating bb write) q).buf = some c := hc
      rw [update_of_ne hq] at hc
      exact h.locked q c hc

/-! ## The device -/

theorem unfinished_perm (s : State) {id : Nat} {submitted : List Nat}
    (h : s.submitted = id :: submitted) :
    (submitted ++ id :: s.outstanding ++ s.reported.map VirtqUsedElem.id).Perm s.unfinished := by
  rw [State.unfinished, h]
  exact (List.perm_middle.append_right _)

theorem Flights.perm {flying : Pid → Request → Prop} {bDisk : Buf → Bool} {is ks : List Nat}
    (h : Flights flying bDisk is) (hperm : ks.Perm is) : Flights flying bDisk ks where
  once := hperm.nodup_iff.mpr h.once
  head i hi := h.head i (hperm.mem_iff.mp hi)
  there p r hr hb := hperm.mem_iff.mpr (h.there p r hr hb)
  busy := h.busy

/-- The device takes what has been submitted first. -/
theorem Inv.submitted_head (h : Inv s) (hne : s.devIndex ≠ s.disk.avail.index) :
    ∃ submitted, s.submitted
      = s.disk.avail.ring (slot VIRTIO_DESC_NUM s.devIndex) :: submitted := by
  cases hsub : s.submitted with
  | nil =>
    have heq := (h.rings.avail.eq_iff (by decide)).mpr hsub
    exact absurd heq hne
  | cons id submitted =>
    have havail := h.rings.avail
    rw [hsub] at havail
    exact ⟨submitted, by rw [havail.head]⟩

theorem Inv.consume (h : Inv s) (hne : s.devIndex ≠ s.disk.avail.index) : Inv (consume s) := by
  obtain ⟨submitted, hsub⟩ := h.submitted_head hne
  have havail := h.rings.avail
  rw [hsub] at havail
  have htail : s.submitted.tail = submitted := by rw [hsub]; rfl
  refine ⟨h.owned, ?_, ⟨?_, h.rings.used, h.rings.status⟩, h.sleepers, h.locked, h.awake⟩
  · have hflights := h.flights.perm (unfinished_perm s hsub)
    unfold State.unfinished VirtioDisk.consume
    rw [htail]
    exact hflights
  · unfold VirtioDisk.consume
    rw [htail]
    exact havail.pop

theorem writeStatus_buf (info : Nat → Info) (a : Addr) (v : Int) (i : Nat) :
    (writeStatus info a v i).buf = (info i).buf := by
  cases a with
  | status j =>
    by_cases hi : i = j
    · subst hi
      show (update info i _ i).buf = _
      rw [update_self]
    · show (update info j _ i).buf = _
      rw [update_of_ne hi]
  | _ => rfl

theorem writeStatus_zero (info : Nat → Info) (a : Addr) (i : Nat) (h : (info i).status = 0) :
    (writeStatus info a 0 i).status = 0 := by
  cases a with
  | status j =>
    by_cases hi : i = j
    · subst hi
      show (update info i _ i).status = _
      rw [update_self]
    · show (update info j _ i).status = _
      rw [update_of_ne hi, h]
  | _ => exact h

/-- The chain of a request ends with its status. -/
theorem Chain.statusAddr {d : DiskT} (h : Chain d r) :
    statusAddr d.desc r.i0 = .status r.i0 := by
  rw [VirtioDisk.statusAddr, h.desc0, show r.desc0.next = r.i1 from rfl, h.desc1,
    show r.desc1.next = r.i2 from rfl, h.desc2]
  rfl

/-- The heads are different and less than `VIRTIO_DESC_NUM`, so there is room in the rings. -/
theorem nodup_room {is : List Nat} {k : Nat} (hnodup : is.Nodup) (hsmall : ∀ i ∈ is, i < k) :
    is.length ≤ k := by
  have hsub : is ⊆ List.range k := fun i hi => List.mem_range.mpr (hsmall i hi)
  have hlen := (List.Nodup.subperm hnodup hsub).length_le
  rwa [List.length_range] at hlen

theorem Inv.complete (h : Inv s) {e : VirtqUsedElem} (he : e.id ∈ s.outstanding) :
    Inv (complete s e) := by
  have hmem : e.id ∈ s.unfinished :=
    List.mem_append_left _ (List.mem_append_right _ he)
  obtain ⟨p, r, hp, hid, hbusy⟩ := h.flights.head e.id hmem
  have haddr : statusAddr s.disk.desc e.id = .status e.id := by
    rw [← hid]
    exact (h.owned.request p r hp).statusAddr
  have hperm : (s.submitted ++ s.outstanding.erase e.id ++ (s.reported ++ [e]).map VirtqUsedElem.id).Perm
      s.unfinished := by
    have herase : s.outstanding.Perm (e.id :: s.outstanding.erase e.id) := List.perm_cons_erase he
    rw [List.map_append, State.unfinished, List.append_assoc, List.append_assoc]
    refine List.Perm.append_left s.submitted ?_
    have hmove := (herase.symm.append_right (s.reported.map VirtqUsedElem.id))
    refine List.Perm.trans ?_ hmove
    rw [← List.append_assoc]
    exact List.perm_append_singleton e.id _
  have hroom : s.reported.length < VIRTIO_DESC_NUM := by
    have hnodup := hperm.nodup_iff.mpr h.flights.once
    have hlen := nodup_room hnodup fun i hi => h.unfinished_small (hperm.mem_iff.mp hi)
    simp only [List.length_append, List.length_map, List.length_singleton] at hlen
    omega
  refine ⟨?_, h.flights.perm hperm, ⟨h.rings.avail, h.rings.used.push (by decide) hroom e, ?_⟩,
    h.sleepers, h.locked, h.awake⟩
  · exact h.owned.congr rfl (fun _ _ => rfl) rfl (fun i => writeStatus_buf _ _ _ i) fun _ _ _ => rfl
  · intro x hx
    show (writeStatus s.disk.info (statusAddr s.disk.desc e.id) 0 x.id).status = 0
    rcases List.mem_append.mp hx with hx | hx
    · exact writeStatus_zero _ _ _ (h.rings.status x hx)
    · rw [List.mem_singleton.mp hx, haddr]
      show (update s.disk.info e.id _ e.id).status = 0
      rw [update_self]

/-! ## The handler -/

theorem Inv.interrupt (h : Inv s) {me : Option Pid} (hme : ∀ p, me = some p → s.blocked p = false) :
    Inv { s with handler := some me } :=
  ⟨h.owned, h.flights, h.rings, h.sleepers, h.locked, fun q hq => hme q (Option.some.inj hq)⟩

theorem Inv.interruptEnd (h : Inv s) : Inv { s with handler := none } :=
  ⟨h.owned, h.flights, h.rings, h.sleepers, h.locked, fun _ hq => nomatch hq⟩

/-- The state after a turn of the handler. -/
def State.finished (s : State) (bb : Buf) : State :=
  { s with
    buf := update s.buf bb
      { s.buf bb with bDisk := false, bValid := true, diskWaitList := [] }
    blocked := WaitList.awaken (s.diskWait bb) s.blocked
    disk := { s.disk with usedIndex := s.disk.usedIndex + 1 }
    reported := s.reported.tail }

theorem finished_bDisk (s : State) (bb : Buf) :
    (s.finished bb).bDisk = update s.bDisk bb false := field_update ..

/-- What the handler sees: the head of a request whose buffer is marked. -/
theorem Inv.reported_head (h : Inv s) (hne : s.disk.usedIndex ≠ s.disk.used.index) :
    ∃ p r e, s.flying p r ∧ s.bDisk r.bb = true ∧ s.reported = e :: s.reported.tail ∧ r.i0 = e.id ∧
      s.disk.used.ring (slot VIRTIO_DESC_NUM s.disk.usedIndex) = e := by
  cases hrep : s.reported with
  | nil => exact absurd ((h.rings.used.eq_iff (by decide)).mpr hrep) hne
  | cons e reported =>
    have hused := h.rings.used
    rw [hrep] at hused
    have hmem : e.id ∈ s.unfinished := by
      refine List.mem_append_right _ (List.mem_map_of_mem ?_)
      rw [hrep]
      exact List.mem_cons_self
    obtain ⟨p, r, hp, hid, hbusy⟩ := h.flights.head e.id hmem
    exact ⟨p, r, e, hp, hbusy, rfl, hid, hused.head⟩

theorem Inv.finished (h : Inv s) {e : VirtqUsedElem} (hp : s.flying p r)
    (hrep : s.reported = e :: s.reported.tail) (hid : r.i0 = e.id) : Inv (s.finished r.bb) := by
  have hused := h.rings.used
  rw [hrep] at hused
  have hperm : s.unfinished.Perm
      (e.id :: (s.submitted ++ s.outstanding ++ s.reported.tail.map VirtqUsedElem.id)) := by
    rw [State.unfinished, hrep]
    exact List.perm_middle
  have hflights := h.flights.perm hperm.symm
  obtain ⟨hout, hnodup⟩ := List.nodup_cons.mp hflights.once
  refine ⟨?_, ?_, ⟨h.rings.avail, hused.pop, fun x hx => ?_⟩, ?_, h.locked, fun q hq => ?_⟩
  · refine h.owned.congr rfl (fun _ _ => rfl) rfl (fun _ => rfl) fun q t ht => ?_
    have hblkno : (s.finished r.bb).blkno = s.blkno := field_same _ _ _ _ rfl
    rw [hblkno]
  · rw [finished_bDisk]
    refine ⟨hnodup, fun i hi => ?_, fun q t ht hb => ?_, fun c hc => ?_⟩
    · obtain ⟨q, t, ht, hti, hb⟩ := hflights.head i (List.mem_cons_of_mem _ hi)
      have hne : t.bb ≠ r.bb := by
        intro heq
        obtain ⟨-, rfl⟩ := h.buf_inj ht hp heq
        rw [← hti, hid] at hi
        exact hout hi
      exact ⟨q, t, ht, hti, by rw [update_of_ne hne]; exact hb⟩
    · have hne : t.bb ≠ r.bb := by
        intro heq
        rw [heq, update_self] at hb
        cases hb
      rw [update_of_ne hne] at hb
      refine (List.mem_cons.mp (hflights.there q t ht hb)).resolve_left fun heq => ?_
      obtain ⟨-, rfl⟩ := h.owned.head_inj ht hp (heq.trans hid.symm)
      exact hne rfl
    · have hne : c ≠ r.bb := by
        rintro rfl
        rw [update_self] at hc
        cases hc
      rw [update_of_ne hne] at hc
      exact hflights.busy c hc
  · exact h.rings.status x (List.mem_of_mem_tail hx)
  · have hwait : (s.finished r.bb).diskWait = update s.diskWait r.bb [] := field_update ..
    rw [hwait, finished_bDisk]
    exact h.sleepers.wakeDisk r.bb
  · exact awaken_awake (h.awake q hq)

/-- A turn of the handler is about the buffer of the request that has been reported. -/
theorem Inv.turn (h : Inv s) {me : Option Pid} (hme : s.handler = some me)
    (hne : s.disk.usedIndex ≠ s.disk.used.index) :
    ∃ p r, s.flying p r ∧
      r.i0 = (s.disk.used.ring (slot VIRTIO_DESC_NUM s.disk.usedIndex)).id ∧
      interruptTurn s me = some (s.finished r.bb) ∧ Inv (s.finished r.bb) := by
  obtain ⟨p, r, e, hp, -, hrep, hid, hring⟩ := h.reported_head hne
  refine ⟨p, r, hp, by rw [hring, hid], ?_, h.finished hp hrep hid⟩
  have hstatus : (s.disk.info e.id).status = 0 :=
    h.rings.status e (by rw [hrep]; exact List.mem_cons_self)
  have hinfo : (s.disk.info e.id).buf = some r.bb := by
    rw [← hid]
    exact (h.owned.request p r hp).info
  have hblocked : procUnblockAll me (s.buf r.bb).diskWaitList s.blocked
      = some (WaitList.awaken (s.buf r.bb).diskWaitList s.blocked) :=
    (h.sleepers.queuedDisk r.bb).unblockAll fun q hq => h.awake q (by rw [hme, hq])
  unfold interruptTurn
  rw [hring]
  dsimp only
  rw [if_pos hstatus, hinfo, Option.bind_eq_bind, Option.bind_some, hblocked]
  rfl

/-! ## The driver -/

/-- The state in which a process blocks on the list of its buffer. -/
def State.waitFor (s : State) (p : Pid) (bb : Buf) : State :=
  { s with
    buf := update s.buf bb { s.buf bb with diskWaitList := p :: s.diskWait bb }
    blocked := update s.blocked p true }

theorem waitDisk_busy {s : State} (hp : s.blocked p = false) (hbusy : s.bDisk r.bb = true) :
    waitDisk s p r = some (s.waitFor p r.bb) := by
  have hbusy : (s.buf r.bb).bDisk = true := hbusy
  unfold waitDisk
  dsimp only
  rw [if_pos hbusy, procBlock_of_awake hp]
  rfl

theorem Inv.waitFor (h : Inv s) (hp : s.flying p r) (hawake : s.blocked p = false)
    (hlock : s.handler = none) (hbusy : s.bDisk r.bb = true) : Inv (s.waitFor p r.bb) := by
  have hblkno : (s.waitFor p r.bb).blkno = s.blkno := field_same _ _ _ _ rfl
  have hdisk : (s.waitFor p r.bb).bDisk = s.bDisk := field_same _ _ _ _ rfl
  have hwait : (s.waitFor p r.bb).diskWait
      = update s.diskWait r.bb (p :: s.diskWait r.bb) := field_update ..
  refine ⟨?_, ?_, h.rings, ?_, h.locked, fun q hq => ?_⟩
  · rw [hblkno]
    exact h.owned
  · rw [hdisk]
    exact h.flights
  · rw [hwait, hdisk]
    exact h.sleepers.blockDisk hawake hp hbusy
  · have hq : s.handler = some (some q) := hq
    rw [hlock] at hq
    cases hq

theorem Chain.sameInfo {d : DiskT} {info : Nat → Info} (h : Chain d r) :
    Chain { d with info := info } r :=
  ⟨h.nodup, h.small, h.taken, h.desc0, h.desc1, h.desc2⟩

/-- The state after a request has been finished. -/
def State.returned (s : State) (p : Pid) (r : Request) : State :=
  let info := update s.disk.info r.i0 { s.disk.info r.i0 with buf := none }
  let s := State.freed { s with disk := { s.disk with info := info } } r.index
  { s with place := update s.place p .outside }

theorem waitDisk_done (h : Inv s) (hp : s.flying p r) (hawake : s.blocked p = false)
    (hdone : s.bDisk r.bb = false) : waitDisk s p r = some (s.returned p r) := by
  have hdone : ¬ (s.buf r.bb).bDisk = true := fun hbusy => by
    rw [show (s.buf r.bb).bDisk = false from hdone] at hbusy
    cases hbusy
  have hfree : ∀ info, freeDescriptorList p VIRTIO_DESC_NUM { s with disk := { s.disk with
      info := info } } r.i0 = some (State.freed { s with disk := { s.disk with info := info } }
      r.index) := fun info =>
    freeDescriptorList_eq (h.owned.request p r hp).toChain.sameInfo h.sleepers.queued hawake
  unfold waitDisk
  dsimp only
  rw [if_neg hdone, hfree]
  rfl

theorem returned_free (s : State) (p : Pid) (r : Request) (i : Nat) :
    (s.returned p r).disk.free i = if i ∈ r.index then true else s.disk.free i :=
  freed_free _ _ i

theorem returned_info (s : State) (p : Pid) (r : Request) (i : Nat) :
    (s.returned p r).disk.info i
      = update s.disk.info r.i0 { s.disk.info r.i0 with buf := none } i := rfl

theorem Inv.returned (h : Inv s) (hp : s.flying p r) (hawake : s.blocked p = false)
    (hlock : s.handler = none) (hdone : s.bDisk r.bb = false) : Inv (s.returned p r) := by
  -- those in flight are the others
  have hflying : ∀ q t, (s.returned p r).flying q t ↔ q ≠ p ∧ s.flying q t := by
    intro q t
    show update s.place p .outside q = .waiting t ↔ _
    by_cases hq : q = p
    · subst hq
      rw [update_self]
      exact ⟨fun h => (by cases h), fun h => absurd rfl h.1⟩
    · rw [update_of_ne hq]
      exact ⟨fun h => ⟨hq, h⟩, fun h => h.2⟩
  have hbusy : ∀ q t, s.flying q t → s.bDisk t.bb = true → q ≠ p := by
    rintro q t ht hb rfl
    obtain rfl := Place.waiting.inj (ht.symm.trans hp)
    rw [hdone] at hb
    cases hb
  refine ⟨⟨fun q t hq => ?_, fun q₁ q₂ t₁ t₂ i h₁ h₂ => ?_, fun i hi hfree => ?_⟩,
    ⟨h.flights.once, fun i hi => ?_, fun q t hq => ?_, fun c hc => ?_⟩,
    ⟨h.rings.avail, h.rings.used, fun e he => ?_⟩, ?_, fun q c hc => ?_, fun q hq => ?_⟩
  · obtain ⟨hne, hq⟩ := (hflying q t).mp hq
    have hout : ∀ i ∈ t.index, i ∉ r.index := fun i hi hir =>
      hne (h.owned.apart q p t r i hq hp hi hir)
    have hhead : t.i0 ≠ r.i0 := fun heq => hout t.i0 (index_mem_i0 t) (heq ▸ index_mem_i0 r)
    refine (h.owned.request q t hq).congr (fun i hi => ?_) (fun i hi => ?_) rfl ?_ rfl
    · rw [returned_free, if_neg (hout i hi)]
    · exact freed_desc _ (hout i hi)
    · rw [returned_info, update_of_ne hhead]
  · exact h.owned.apart q₁ q₂ t₁ t₂ i ((hflying q₁ t₁).mp h₁).2 ((hflying q₂ t₂).mp h₂).2
  · rw [returned_free] at hfree
    split at hfree
    · cases hfree
    next hout =>
      obtain ⟨q, t, hq, hit⟩ := h.owned.taken i hi hfree
      refine ⟨q, t, (hflying q t).mpr ⟨?_, hq⟩, hit⟩
      rintro rfl
      obtain rfl := Place.waiting.inj (hq.symm.trans hp)
      exact hout hit
  · obtain ⟨q, t, hq, hti, hb⟩ := h.flights.head i hi
    exact ⟨q, t, (hflying q t).mpr ⟨hbusy q t hq hb, hq⟩, hti, hb⟩
  · exact h.flights.there q t ((hflying q t).mp hq).2
  · obtain ⟨q, t, hq, rfl⟩ := h.flights.busy c hc
    exact ⟨q, t, (hflying q t).mpr ⟨hbusy q t hq hc, hq⟩, rfl⟩
  · rw [returned_info]
    by_cases hid : e.id = r.i0
    · rw [hid, update_self]
      exact hid ▸ h.rings.status e he
    · rw [update_of_ne hid]
      exact h.rings.status e he
  · exact h.sleepers.wakeAlloc.goto (awaken_awake hawake) .outside
  · have hc : (update s.place p .outside q).buf = some c := hc
    by_cases hq : q = p
    · subst hq
      rw [update_self] at hc
      cases hc
    · rw [update_of_ne hq] at hc
      exact h.locked q c hc
  · have hq : s.handler = some (some q) := hq
    rw [hlock] at hq
    cases hq

/-! ### Too few descriptors -/

/-- The state in which a process blocks on the list of the disk. -/
def State.waitAlloc (s : State) (p : Pid) : State :=
  { s with
    disk := { s.disk with waitList := p :: s.disk.waitList }
    blocked := update s.blocked p true }

theorem marked_freed_free (hfree : ∀ j ∈ js, j < VIRTIO_DESC_NUM ∧ s.disk.free j = true) :
    ((s.marked js).freed js).disk.free = s.disk.free := by
  funext i
  rw [freed_free]
  by_cases hi : i ∈ js
  · rw [if_pos hi, (hfree i hi).2]
  · rw [if_neg hi]
    exact if_neg hi

/-- The descriptors that have been given back were free before. -/
theorem Inv.tried (h : Inv s) (hfree : ∀ j ∈ js, j < VIRTIO_DESC_NUM ∧ s.disk.free j = true) :
    Inv ((s.marked js).freed js) := by
  by_cases hjs : js = []
  · subst hjs
    rw [marked_nil]
    exact h
  · have hmark := marked_freed_free hfree
    have hdesc : ∀ i, s.disk.free i = false →
        ((s.marked js).freed js).disk.desc i = s.disk.desc i := by
      intro i hi
      refine freed_desc _ fun hmem => ?_
      rw [(hfree i hmem).2] at hi
      cases hi
    unfold State.freed at hmark hdesc ⊢
    rw [if_neg hjs] at hmark hdesc ⊢
    exact ⟨h.owned.congr hmark hdesc rfl (fun _ => rfl) fun _ _ _ => rfl, h.flights,
      ⟨h.rings.avail, h.rings.used, h.rings.status⟩, h.sleepers.wakeAlloc, h.locked,
      fun q hq => awaken_awake (h.awake q hq)⟩

theorem Inv.waitAlloc (h : Inv s) {write : Bool} (hplace : s.place p = .allocating bb write)
    (hawake : s.blocked p = false) (hlock : s.handler = none) : Inv (s.waitAlloc p) := by
  refine ⟨h.owned.congr rfl (fun _ _ => rfl) rfl (fun _ => rfl) fun _ _ _ => rfl, h.flights,
    ⟨h.rings.avail, h.rings.used, h.rings.status⟩, h.sleepers.blockAlloc hawake hplace, h.locked,
    fun q hq => ?_⟩
  have hq : s.handler = some (some q) := hq
  rw [hlock] at hq
  cases hq

/-! ### A new request -/

/-- The state in which a request has been handed to the device. -/
def State.handed (s : State) (p : Pid) (r : Request) : State := submit (s.marked r.index) p r

theorem handed_free (s : State) (p : Pid) (r : Request) (i : Nat) :
    (s.handed p r).disk.free i = if i ∈ r.index then false else s.disk.free i := rfl

theorem handed_desc (s : State) (p : Pid) (hi : i ∉ r.index) :
    (s.handed p r).disk.desc i = s.disk.desc i := by
  simp only [Request.index, List.mem_cons, List.not_mem_nil, or_false, not_or] at hi
  obtain ⟨h0, h1, h2⟩ := hi
  show update (update (update s.disk.desc r.i0 _) r.i1 _) r.i2 _ i = _
  rw [update_of_ne h2, update_of_ne h1, update_of_ne h0]

theorem handed_info (s : State) (p : Pid) (r : Request) :
    (s.handed p r).disk.info = update s.disk.info r.i0 ⟨some r.bb, -1⟩ := by
  have hstatus : (update s.disk.info r.i0 { s.disk.info r.i0 with status := -1 } r.i0).status
      = -1 := by
    rw [update_self]
  show update (update s.disk.info r.i0 _) r.i0 ⟨some r.bb, _⟩ = _
  rw [update_idem]
  exact congrArg (fun v => update s.disk.info r.i0 ⟨some r.bb, v⟩) hstatus

theorem handed_ops (s : State) (p : Pid) (r : Request) :
    (s.handed p r).disk.ops = update s.disk.ops r.i0 (r.op (s.blkno r.bb)) := rfl

theorem handed_bDisk (s : State) (p : Pid) (r : Request) :
    (s.handed p r).bDisk = update s.bDisk r.bb true := field_update ..

theorem handed_blkno (s : State) (p : Pid) (r : Request) : (s.handed p r).blkno = s.blkno :=
  field_same _ _ _ _ rfl

theorem handed_diskWait (s : State) (p : Pid) (r : Request) :
    (s.handed p r).diskWait = s.diskWait := field_same _ _ _ _ rfl

/-- The chain is written. -/
theorem handed_chained (s : State) (p : Pid) (hnodup : r.index.Nodup)
    (hfree : ∀ j ∈ r.index, j < VIRTIO_DESC_NUM ∧ s.disk.free j = true) :
    Chained (s.handed p r).disk (s.handed p r).blkno r := by
  obtain ⟨h10, h20, h21⟩ := index_ne hnodup
  rw [List.mem_singleton] at h10 h20 h21
  refine ⟨⟨hnodup, fun j hj => (hfree j hj).1, fun j hj => if_pos hj, ?_, ?_, ?_⟩, ?_, ?_⟩
  · show update (update (update s.disk.desc r.i0 _) r.i1 _) r.i2 _ r.i0 = _
    rw [update_of_ne (Ne.symm h20), update_of_ne (Ne.symm h10),
      update_self]
  · show update (update (update s.disk.desc r.i0 _) r.i1 _) r.i2 _ r.i1 = _
    rw [update_of_ne (Ne.symm h21), update_self]
  · exact update_self ..
  · rw [handed_ops, handed_blkno, update_self]
  · rw [handed_info, update_self]

theorem Inv.handed (h : Inv s) (hplace : s.place p = .allocating r.bb r.write)
    (hawake : s.blocked p = false) (hnodup : r.index.Nodup)
    (hfree : ∀ j ∈ r.index, j < VIRTIO_DESC_NUM ∧ s.disk.free j = true) : Inv (s.handed p r) := by
  have hflying : ∀ q t, (s.handed p r).flying q t ↔ q = p ∧ t = r ∨ s.flying q t := by
    intro q t
    show update s.place p (.waiting r) q = .waiting t ↔ _
    by_cases hq : q = p
    · subst hq
      rw [update_self]
      constructor
      · intro heq
        exact .inl ⟨rfl, (Place.waiting.inj heq).symm⟩
      · rintro (⟨-, rfl⟩ | hfly)
        · rfl
        · have hfly : s.place q = .waiting t := hfly
          rw [hplace] at hfly
          cases hfly
    · rw [update_of_ne hq]
      exact ⟨fun hfly => .inr hfly, fun hor => hor.resolve_left fun hand => hq hand.1⟩
  -- the descriptors and the buffer are nobody else's
  have hout : ∀ q t, s.flying q t → ∀ i ∈ t.index, i ∉ r.index := by
    intro q t hq i hi hir
    have htaken := (h.owned.request q t hq).taken i hi
    rw [(hfree i hir).2] at htaken
    cases htaken
  have howner : s.owner r.bb = some p := h.locked p r.bb (by rw [hplace]; rfl)
  have hbuf : ∀ q t, s.flying q t → t.bb ≠ r.bb := by
    intro q t hq heq
    have hq : s.place q = .waiting t := hq
    have hlock := h.locked q t.bb (by rw [hq]; rfl)
    rw [heq, howner] at hlock
    cases hlock
    rw [hplace] at hq
    cases hq
  have hnew : r.i0 ∉ s.unfinished := by
    intro hmem
    obtain ⟨q, t, hq, hti, -⟩ := h.flights.head r.i0 hmem
    exact hout q t hq t.i0 (index_mem_i0 t) (hti ▸ index_mem_i0 r)
  have hperm : (s.handed p r).unfinished.Perm (r.i0 :: s.unfinished) := by
    show (s.submitted ++ [r.i0] ++ s.outstanding ++ s.reported.map VirtqUsedElem.id).Perm _
    rw [List.append_assoc, List.append_assoc, State.unfinished, List.append_assoc]
    exact List.perm_middle
  have honce : (r.i0 :: s.unfinished).Nodup := List.nodup_cons.mpr ⟨hnew, h.flights.once⟩
  have hroom : s.submitted.length < VIRTIO_DESC_NUM := by
    have hlen := nodup_room honce fun i hi => by
      rcases List.mem_cons.mp hi with rfl | hi
      · exact (hfree r.i0 (index_mem_i0 r)).1
      · exact h.unfinished_small hi
    simp only [State.unfinished, List.length_cons, List.length_append] at hlen
    omega
  refine ⟨⟨fun q t hq => ?_, fun q₁ q₂ t₁ t₂ i h₁ h₂ hi₁ hi₂ => ?_, fun i hi hmark => ?_⟩,
    Flights.perm ⟨honce, fun i hi => ?_, fun q t hq hb => ?_, fun c hc => ?_⟩ hperm,
    ⟨h.rings.avail.push (by decide) hroom r.i0, h.rings.used, fun e he => ?_⟩, ?_,
    fun q c hc => ?_, h.awake⟩
  · rcases (hflying q t).mp hq with ⟨rfl, rfl⟩ | hq
    · exact handed_chained s q hnodup hfree
    · have hhead : t.i0 ≠ r.i0 := fun heq =>
        hout q t hq t.i0 (index_mem_i0 t) (heq ▸ index_mem_i0 r)
      refine (h.owned.request q t hq).congr (fun i hi => ?_) (fun i hi => ?_) ?_ ?_ ?_
      · rw [handed_free, if_neg (hout q t hq i hi)]
      · exact handed_desc s p (hout q t hq i hi)
      · rw [handed_ops, update_of_ne hhead]
      · rw [handed_info, update_of_ne hhead]
      · rw [handed_blkno]
  · rcases (hflying q₁ t₁).mp h₁ with ⟨rfl, rfl⟩ | hold₁ <;>
      rcases (hflying q₂ t₂).mp h₂ with ⟨rfl, rfl⟩ | hold₂
    · rfl
    · exact absurd hi₁ (hout q₂ t₂ hold₂ i hi₂)
    · exact absurd hi₂ (hout q₁ t₁ hold₁ i hi₁)
    · exact h.owned.apart q₁ q₂ t₁ t₂ i hold₁ hold₂ hi₁ hi₂
  · rw [handed_free] at hmark
    by_cases hir : i ∈ r.index
    · exact ⟨p, r, (hflying p r).mpr (.inl ⟨rfl, rfl⟩), hir⟩
    · rw [if_neg hir] at hmark
      obtain ⟨q, t, hq, hit⟩ := h.owned.taken i hi hmark
      exact ⟨q, t, (hflying q t).mpr (.inr hq), hit⟩
  · rw [handed_bDisk]
    rcases List.mem_cons.mp hi with rfl | hi
    · exact ⟨p, r, (hflying p r).mpr (.inl ⟨rfl, rfl⟩), rfl, update_self ..⟩
    · obtain ⟨q, t, hq, hti, hb⟩ := h.flights.head i hi
      refine ⟨q, t, (hflying q t).mpr (.inr hq), hti, ?_⟩
      rw [update_of_ne (hbuf q t hq)]
      exact hb
  · rcases (hflying q t).mp hq with ⟨rfl, rfl⟩ | hq
    · exact List.mem_cons_self
    · rw [handed_bDisk, update_of_ne (hbuf q t hq)] at hb
      exact List.mem_cons_of_mem _ (h.flights.there q t hq hb)
  · rw [handed_bDisk] at hc
    by_cases hcb : c = r.bb
    · exact ⟨p, r, (hflying p r).mpr (.inl ⟨rfl, rfl⟩), hcb.symm⟩
    · rw [update_of_ne hcb] at hc
      obtain ⟨q, t, hq, hb⟩ := h.flights.busy c hc
      exact ⟨q, t, (hflying q t).mpr (.inr hq), hb⟩
  · have hid : e.id ≠ r.i0 := fun heq => hnew (heq ▸
      List.mem_append_right _ (List.mem_map_of_mem he))
    rw [handed_info, update_of_ne hid]
    exact h.rings.status e he
  · rw [handed_diskWait, handed_bDisk]
    exact (h.sleepers.goto hawake (.waiting r)).mark r.bb
  · have hc : (update s.place p (.waiting r) q).buf = some c := hc
    by_cases hq : q = p
    · subst hq
      rw [update_self] at hc
      rw [← Option.some.inj hc]
      exact howner
    · rw [update_of_ne hq] at hc
      exact h.locked q c hc

/-- What `virtio_disk_rw` does once it has the lock: it blocks for want of descriptors and leaves them
    as they were, or three free ones are handed to the device and it waits. -/
theorem Inv.rw (h : Inv s) (bb : Buf) (write : Bool) (hawake : s.blocked p = false) :
    (∃ js, (∀ j ∈ js, j < VIRTIO_DESC_NUM ∧ s.disk.free j = true) ∧
      virtioDiskRw s p bb write = some (((s.marked js).freed js).waitAlloc p)) ∨
    ∃ r : Request, r.bb = bb ∧ r.write = write ∧ r.index.Nodup ∧
      (∀ j ∈ r.index, j < VIRTIO_DESC_NUM ∧ s.disk.free j = true) ∧
      virtioDiskRw s p bb write = some ((s.handed p r).waitFor p bb) := by
  obtain ⟨js, hnodup, hfree, hrun⟩ := alloc3Desc_spec h.sleepers.queued hawake
  rcases hrun with ⟨hlen, hrun⟩ | hrun
  · obtain ⟨i0, i1, i2, rfl⟩ := List.length_eq_three.mp hlen
    refine .inr ⟨⟨bb, write, i0, i1, i2⟩, rfl, rfl, hnodup, hfree, ?_⟩
    have hbusy : (s.handed p ⟨bb, write, i0, i1, i2⟩).bDisk bb = true := by
      rw [handed_bDisk]
      exact update_self ..
    have hwait := waitDisk_busy (r := ⟨bb, write, i0, i1, i2⟩)
      (s := s.handed p ⟨bb, write, i0, i1, i2⟩) hawake hbusy
    unfold virtioDiskRw
    rw [hrun]
    exact hwait
  · refine .inl ⟨js, hfree, ?_⟩
    have hblock := procBlock_of_awake (freed_awake (s := s.marked js) hawake js)
      ((s.marked js).freed js).disk.waitList
    unfold virtioDiskRw
    rw [hrun]
    dsimp only [Option.bind_eq_bind, Option.bind_some]
    rw [hblock]
    rfl

/-! ## The claims of the driver -/

/-- A descriptor belongs to a request of this process. -/
def Owner (s : State) (i : Nat) (p : Pid) : Prop := ∃ r, s.flying p r ∧ i ∈ r.index

/-- In a state: every descriptor is free or belongs to one request in flight, a request has three of
    them, chained, and what has been submitted is in the avail ring until the device takes it. -/
structure Tracks (s : State) : Prop where
  descriptor : ∀ i < VIRTIO_DESC_NUM, s.disk.free i = true ∧ (∀ p, ¬ Owner s i p) ∨
    s.disk.free i = false ∧ ∃! p, Owner s i p
  request : ∀ p r, s.flying p r → Chained s.disk s.blkno r
  avail : Holds s.disk.avail.ring VIRTIO_DESC_NUM s.devIndex s.disk.avail.index s.submitted

/-- What a step does with the descriptors and the buffers. -/
def StepTracks (s : State) (i : Input) (s' : State) : Prop :=
  match i with
  | .allocate p => ∀ bb write, s.place p = .allocating bb write →
      s'.place p = .allocating bb write ∧ s'.disk.free = s.disk.free ∧ s'.submitted = s.submitted ∨
      ∃ r : Request, r.bb = bb ∧ r.write = write ∧ s'.flying p r ∧
        (∀ j ∈ r.index, s.disk.free j = true) ∧ s'.bDisk bb = true ∧
        s'.submitted = s.submitted ++ [r.i0]
  | .wake p => ∀ r, s.flying p r →
      s.bDisk r.bb = true ∧ s'.flying p r ∧ s'.disk.free = s.disk.free ∨
      s.bDisk r.bb = false ∧ s'.place p = .outside ∧
        ∀ j, s'.disk.free j = if j ∈ r.index then true else s.disk.free j
  | .turn => ∃ p r, s.flying p r ∧
      r.i0 = (s.disk.used.ring (slot VIRTIO_DESC_NUM s.disk.usedIndex)).id ∧
      ∀ bb, s'.bDisk bb = if bb = r.bb then false else s.bDisk bb
  | .consume => ∃ id, s.submitted = id :: s'.submitted ∧ s'.outstanding = id :: s.outstanding
  | .complete e => s'.outstanding = s.outstanding.erase e.id ∧ s'.reported = s.reported ++ [e]
  | _ => s'.disk = s.disk ∧ s'.bDisk = s.bDisk

theorem Inv.tracks (h : Inv s) : Tracks s where
  descriptor i hi := by
    cases hfree : s.disk.free i with
    | true =>
      refine .inl ⟨rfl, ?_⟩
      rintro p ⟨r, hp, hir⟩
      have htaken := (h.owned.request p r hp).taken i hir
      rw [hfree] at htaken
      cases htaken
    | false =>
      obtain ⟨p, r, hp, hir⟩ := h.owned.taken i hi hfree
      refine .inr ⟨rfl, p, ⟨r, hp, hir⟩, ?_⟩
      rintro q ⟨t, hq, hit⟩
      exact h.owned.apart q p t r i hq hp hit hir
  request := h.owned.request
  avail := h.rings.avail

/-- A step is possible, keeps the invariant and does what it is to do. -/
theorem step_spec (h : Inv s) {i : Input} (he : Enabled s i) :
    ∃ s', next s i = some s' ∧ Inv s' ∧ StepTracks s i s' := by
  cases i with
  | lock p bb blkno => exact ⟨_, rfl, h.lock he.1, rfl, field_same _ _ _ _ rfl⟩
  | unlock p bb => exact ⟨_, rfl, h.unlock he.1 he.2, rfl, rfl⟩
  | call p bb write => exact ⟨_, rfl, h.call he.1 he.2, rfl, rfl⟩
  | interrupt me => exact ⟨_, rfl, h.interrupt he.2, rfl, rfl⟩
  | interruptEnd => exact ⟨_, rfl, h.interruptEnd, rfl, rfl⟩
  | consume =>
    obtain ⟨submitted, hsub⟩ := h.submitted_head he
    refine ⟨_, rfl, h.consume he, _, ?_, rfl⟩
    have htail : s.submitted.tail = submitted := by rw [hsub]; rfl
    show s.submitted = _ :: s.submitted.tail
    rw [htail]
    exact hsub
  | complete e => exact ⟨_, rfl, h.complete he, rfl, rfl⟩
  | turn =>
    obtain ⟨hhandler, hne⟩ := he
    obtain ⟨me, hme⟩ := Option.ne_none_iff_exists'.mp hhandler
    obtain ⟨p, r, hp, hid, hrun, hinv⟩ := h.turn hme hne
    refine ⟨s.finished r.bb, ?_, hinv, p, r, hp, hid, fun bb => ?_⟩
    · show s.handler.bind _ = _
      rw [hme, Option.bind_some, hrun]
    · rw [finished_bDisk, update_apply]
  | allocate p =>
    obtain ⟨⟨bb, write, hplace⟩, hawake, hlock⟩ := he
    have hnext : next s (.allocate p) = virtioDiskRw s p bb write := by
      simp only [next, hplace]
    rw [hnext]
    rcases h.rw bb write hawake with ⟨js, hfree, hrun⟩ | ⟨r, rfl, rfl, hnodup, hfree, hrun⟩
    · have htried := h.tried hfree
      have hplace' : ((s.marked js).freed js).place p = .allocating bb write := by
        rw [freed_place]
        exact hplace
      refine ⟨_, hrun, htried.waitAlloc hplace' (freed_awake (s := s.marked js) hawake js) ?_,
        ?_⟩
      · rw [freed_handler]
        exact hlock
      · intro bb' write' hplace''
        rw [hplace] at hplace''
        obtain ⟨rfl, rfl⟩ := Place.allocating.inj hplace''
        exact .inl ⟨hplace', marked_freed_free hfree, freed_submitted _ js⟩
    · have hhanded := h.handed hplace hawake hnodup hfree
      have hfly : (s.handed p r).flying p r := update_self ..
      have hbusy : (s.handed p r).bDisk r.bb = true := by
        rw [handed_bDisk]
        exact update_self ..
      refine ⟨_, hrun, hhanded.waitFor hfly hawake hlock hbusy, ?_⟩
      intro bb' write' hplace''
      rw [hplace] at hplace''
      obtain ⟨rfl, rfl⟩ := Place.allocating.inj hplace''
      refine .inr ⟨r, rfl, rfl, hfly, fun j hj => (hfree j hj).2, ?_, rfl⟩
      have hsame : ((s.handed p r).waitFor p r.bb).bDisk = (s.handed p r).bDisk := field_same _ _ _ _ rfl
      rw [hsame, hbusy]
  | wake p =>
    obtain ⟨⟨r, hp⟩, hawake, hlock⟩ := he
    have hp : s.place p = .waiting r := hp
    have hnext : next s (.wake p) = waitDisk s p r := by
      simp only [next, hp]
    rw [hnext]
    have honly : ∀ t, s.flying p t → t = r := fun t ht => Place.waiting.inj (ht.symm.trans hp)
    cases hbusy : s.bDisk r.bb with
    | true =>
      refine ⟨_, waitDisk_busy hawake hbusy, h.waitFor hp hawake hlock hbusy, fun t ht => ?_⟩
      rw [honly t ht]
      exact .inl ⟨hbusy, hp, rfl⟩
    | false =>
      refine ⟨_, waitDisk_done h hp hawake hbusy, h.returned hp hawake hlock hbusy, fun t ht => ?_⟩
      rw [honly t ht]
      exact .inr ⟨hbusy, update_self .., returned_free s p r⟩

theorem reaches_inv (h : Reaches Step anyInput start s) : Inv s := by
  refine h.invariant start_inv fun a i b ha _ hstep => ?_
  obtain ⟨he, hnext⟩ := hstep
  obtain ⟨b', hnext', hinv, -⟩ := step_spec ha he
  rw [hnext] at hnext'
  rw [Option.some.inj hnext']
  exact hinv

/-- In every state that can be reached the descriptors are accounted for, and nothing that can happen
    fails an assertion or touches a request or a buffer other than its own. -/
theorem disk_tracks (h : Reaches Step anyInput start s) :
    Tracks s ∧ ∀ i, Enabled s i → ∃ s', next s i = some s' ∧ StepTracks s i s' := by
  have hinv := reaches_inv h
  refine ⟨hinv.tracks, fun i he => ?_⟩
  obtain ⟨s', hnext, -, htracks⟩ := step_spec hinv he
  exact ⟨s', hnext, htracks⟩

/-- The second request is finished before the first one: its buffer is free, the other is not. -/
theorem disk_tracks_overtaken : ∃ s : State, s.bDisk 7 = true ∧ s.bDisk 8 = false ∧ Tracks s ∧
    ∀ i, Enabled s i → ∃ s', next s i = some s' ∧ StepTracks s i s' := by
  have hrun : Leads (guarded Enabled next) start [.lock 1 7 40, .call 1 7 false, .allocate 1,
      .lock 2 8 41, .call 2 8 true, .allocate 2, .consume, .consume, .complete ⟨3, 1⟩,
      .interrupt none, .turn, .interruptEnd, .wake 2]
      fun s => s.bDisk 7 = true ∧ s.bDisk 8 = false := by
    decide +kernel
  obtain ⟨s, hreach, hbusy, hfree⟩ :=
    hrun.reaches Step anyInput fun s i s' h => ⟨trivial, guarded_step s i s' h⟩
  exact ⟨s, hbusy, hfree, disk_tracks hreach⟩

end Uniks.VirtioDisk
