import Mathlib.Data.List.Nodup
import Mathlib.Data.Nat.Bitwise

/-!
# `fdset_s`

The set of file descriptors that is handed to `poll`, as in `fdset.c`: an array of `pollfd`
entries in the order they were added. Allocation succeeds. The flags are those of Linux.
-/

namespace Netxy

/-! ## Flags -/

def POLLIN : BitVec 16 := 0x001
def POLLPRI : BitVec 16 := 0x002
def POLLOUT : BitVec 16 := 0x004
def POLLERR : BitVec 16 := 0x008
def POLLHUP : BitVec 16 := 0x010
def POLLRDNORM : BitVec 16 := 0x040
def POLLRDBAND : BitVec 16 := 0x080
def POLLWRNORM : BitVec 16 := 0x100
def POLLWRBAND : BitVec 16 := 0x200

/-- What `ReadCheck` asks `poll` for. -/
def CHECK_READ_FLAG : BitVec 16 := POLLIN ||| POLLRDNORM ||| POLLRDBAND ||| POLLPRI

/-- What `WriteCheck` asks `poll` for. -/
def CHECK_WRITE_FLAG : BitVec 16 := POLLOUT ||| POLLWRNORM ||| POLLWRBAND

/-- What `ErrorCheck` takes off again; `poll` reports these without being asked. -/
def CHECK_ERROR_FLAG : BitVec 16 := POLLERR ||| POLLHUP

/-- `enum CheckType`, whose values are also or-ed. -/
def ReadCheck : ℕ := 0x1
def WriteCheck : ℕ := 0x2
def ErrorCheck : ℕ := 0x4

/-! ## The set -/

/-- `struct pollfd`. -/
structure PollFd where
  fd : ℤ
  events : BitVec 16
  revents : BitVec 16
deriving DecidableEq, Repr

/-- `struct fdset_s`; `nfds` is the number of entries. -/
structure FdSet where
  pollFds : List PollFd
  limitSize : ℕ
deriving DecidableEq, Repr

namespace FdSet

/-- `upstepPollfd`. -/
def upstepPollfd (self : FdSet) (upSize : ℕ) : FdSet :=
  { self with limitSize := self.limitSize + upSize }

/-- `ox_fdset_new`. -/
def new : FdSet := upstepPollfd ⟨[], 0⟩ 1024

/-- `findPollfd`. -/
def findPollfd (self : FdSet) (fd : ℤ) : Option PollFd := self.pollFds.find? (·.fd = fd)

/-- A write through the pointer `findPollfd` returns. -/
def modify (f : PollFd → PollFd) (fd : ℤ) : List PollFd → List PollFd
  | [] => []
  | pf :: pfs => if pf.fd = fd then f pf :: pfs else pf :: modify f fd pfs

/-- `TryRemovePollFd`. -/
def tryRemovePollFd (self : FdSet) (fd : ℤ) : FdSet :=
  { self with pollFds := self.pollFds.eraseP (·.fd = fd) }

/-- The events `ox_fdset_add` asks for; nothing is asked for `ErrorCheck`. -/
def addEvents (type : ℕ) (events : BitVec 16) : BitVec 16 :=
  let events := if type &&& ReadCheck ≠ 0 then events ||| CHECK_READ_FLAG else events
  if type &&& WriteCheck ≠ 0 then events ||| CHECK_WRITE_FLAG else events

/-- The events that `ox_fdset_del` leaves. -/
def delEvents (type : ℕ) (events : BitVec 16) : BitVec 16 :=
  let events := if type &&& ReadCheck ≠ 0 then events &&& ~~~CHECK_READ_FLAG else events
  let events := if type &&& WriteCheck ≠ 0 then events &&& ~~~CHECK_WRITE_FLAG else events
  if type &&& ErrorCheck ≠ 0 then events &&& ~~~CHECK_ERROR_FLAG else events

/-- `ox_fdset_add`. The `revents` of a new entry are what was in its memory. -/
def add (self : FdSet) (fd : ℤ) (type : ℕ) (stale : BitVec 16) : FdSet :=
  let self := if self.limitSize = self.pollFds.length then self.upstepPollfd 128 else self
  if self.pollFds.length < self.limitSize then
    let pollFds :=
      if (self.findPollfd fd).isSome then self.pollFds else self.pollFds ++ [⟨fd, 0, stale⟩]
    { self with
      pollFds := modify (fun pf => { pf with events := addEvents type pf.events }) fd pollFds }
  else self

/-- `ox_fdset_del`. -/
def del (self : FdSet) (fd : ℤ) (type : ℕ) : FdSet :=
  match self.findPollfd fd with
  | none => self
  | some pf =>
    let self := { self with
      pollFds := modify (fun pf => { pf with events := delEvents type pf.events }) fd self.pollFds }
    if delEvents type pf.events = 0 then self.tryRemovePollFd fd else self

/-- `ox_fdset_poll`, which fills in the `revents` of every entry. -/
def poll (self : FdSet) (revents : ℤ → BitVec 16) : FdSet :=
  { self with pollFds := self.pollFds.map fun pf => { pf with revents := revents pf.fd } }

/-- `ox_fdset_check`. -/
def check (self : FdSet) (fd : ℤ) (type : ℕ) : Bool :=
  match self.findPollfd fd with
  | none => false
  | some pf =>
    (type &&& ReadCheck ≠ 0 && pf.revents &&& CHECK_READ_FLAG ≠ 0) ||
      (type &&& WriteCheck ≠ 0 && pf.revents &&& CHECK_WRITE_FLAG ≠ 0) ||
      (type &&& ErrorCheck ≠ 0 && pf.revents &&& CHECK_ERROR_FLAG ≠ 0)

/-! ## What an operation does to the entries -/

/-- The descriptors that have an entry, in the order of the array. -/
def fds (self : FdSet) : List ℤ := self.pollFds.map PollFd.fd

/-- Where there is no entry, none is found. -/
theorem findPollfd_eq_none {self : FdSet} {fd : ℤ} (h : fd ∉ self.fds) :
    self.findPollfd fd = none := by
  rw [findPollfd, List.find?_eq_none]
  intro pf hpf heq
  exact h (List.mem_map.mpr ⟨pf, hpf, of_decide_eq_true heq⟩)

/-- Where there is an entry, one is found. -/
theorem exists_findPollfd {self : FdSet} {fd : ℤ} (h : fd ∈ self.fds) :
    ∃ pf ∈ self.pollFds, pf.fd = fd ∧ self.findPollfd fd = some pf := by
  obtain ⟨pf, hpf, heq⟩ := List.mem_map.mp h
  rcases hfind : self.findPollfd fd with _ | pf'
  · exact absurd (decide_eq_true heq) (List.find?_eq_none.mp hfind pf hpf)
  · have hfd := List.find?_some hfind
    exact ⟨pf', List.mem_of_find?_eq_some hfind, of_decide_eq_true hfd, rfl⟩

/-- A write goes to the first entry of the descriptor, so entries in front of it do not matter. -/
theorem modify_append_of_notMem {f : PollFd → PollFd} {fd : ℤ} {l r : List PollFd}
    (h : fd ∉ l.map PollFd.fd) : modify f fd (l ++ r) = l ++ modify f fd r := by
  induction l with
  | nil => rfl
  | cons pf pfs ih =>
    rw [List.map_cons, List.mem_cons, not_or] at h
    rw [List.cons_append, modify, if_neg (Ne.symm h.1), ih h.2, List.cons_append]

/-- A write to the events leaves the descriptors where they are. -/
theorem map_fd_modify {f : PollFd → PollFd} (hf : ∀ pf, (f pf).fd = pf.fd) (fd : ℤ)
    (l : List PollFd) : (modify f fd l).map PollFd.fd = l.map PollFd.fd := by
  induction l with
  | nil => rfl
  | cons pf pfs ih =>
    rw [modify]
    split
    · rw [List.map_cons, List.map_cons, hf]
    · rw [List.map_cons, List.map_cons, ih]

/-- An entry that is removed need not have been written to. -/
theorem eraseP_modify {f : PollFd → PollFd} {fd : ℤ} (hf : ∀ pf, (f pf).fd = pf.fd)
    (l : List PollFd) : (modify f fd l).eraseP (·.fd = fd) = l.eraseP (·.fd = fd) := by
  induction l with
  | nil => rfl
  | cons pf pfs ih =>
    rw [modify]
    by_cases h : pf.fd = fd
    · rw [if_pos h, List.eraseP_cons_of_pos (by simpa [hf] using h),
        List.eraseP_cons_of_pos (by simpa using h)]
    · rw [if_neg h, List.eraseP_cons_of_neg (by simpa using h),
        List.eraseP_cons_of_neg (by simpa using h), ih]

theorem map_eraseP_fd (fd : ℤ) (l : List PollFd) :
    (l.eraseP (·.fd = fd)).map PollFd.fd = (l.map PollFd.fd).erase fd := by
  induction l with
  | nil => rfl
  | cons pf pfs ih =>
    rw [List.map_cons]
    by_cases h : pf.fd = fd
    · rw [List.eraseP_cons_of_pos (by simpa using h), h, List.erase_cons_head]
    · rw [List.eraseP_cons_of_neg (by simpa using h), List.map_cons, ih,
        List.erase_cons_tail (by simpa using h)]

/-- The entries that `add` finds or makes, before it asks for the events. -/
def opened (self : FdSet) (fd : ℤ) (stale : BitVec 16) : List PollFd :=
  if (self.findPollfd fd).isSome then self.pollFds else self.pollFds ++ [⟨fd, 0, stale⟩]

/-- A full array is made larger first, so an entry is never refused. -/
theorem add_eq {self : FdSet} (hlimit : self.pollFds.length ≤ self.limitSize) (fd : ℤ) (type : ℕ)
    (stale : BitVec 16) :
    self.add fd type stale =
      { pollFds := modify (fun pf => { pf with events := addEvents type pf.events }) fd
          (self.opened fd stale)
        limitSize :=
          if self.limitSize = self.pollFds.length then self.limitSize + 128
          else self.limitSize } := by
  unfold add
  by_cases hfull : self.limitSize = self.pollFds.length
  · simp only [if_pos hfull, upstepPollfd]
    rw [if_pos (by omega)]
    rfl
  · simp only [if_neg hfull]
    rw [if_pos (by omega)]
    rfl

/-- A descriptor is added at the end, if it has no entry yet. -/
theorem fds_add {self : FdSet} (hlimit : self.pollFds.length ≤ self.limitSize) (fd : ℤ) (type : ℕ)
    (stale : BitVec 16) :
    (self.add fd type stale).fds = if fd ∈ self.fds then self.fds else self.fds ++ [fd] := by
  have hopened : (self.add fd type stale).fds = (self.opened fd stale).map PollFd.fd := by
    rw [add_eq hlimit, fds]
    apply map_fd_modify
    intro pf
    rfl
  rw [hopened, opened]
  by_cases h : fd ∈ self.fds
  · obtain ⟨pf, -, -, hfind⟩ := exists_findPollfd h
    rw [if_pos h, hfind, Option.isSome_some, if_pos rfl, fds]
  · rw [if_neg h, findPollfd_eq_none h, Option.isSome_none, if_neg Bool.false_ne_true,
      List.map_append]
    rfl

theorem length_fds (self : FdSet) : self.fds.length = self.pollFds.length := List.length_map _

/-- The array is made larger before it would be full, so `add` keeps `nfds <= limitSize`. -/
theorem length_add_le {self : FdSet} (hlimit : self.pollFds.length ≤ self.limitSize) (fd : ℤ)
    (type : ℕ) (stale : BitVec 16) :
    (self.add fd type stale).pollFds.length ≤ (self.add fd type stale).limitSize := by
  have hlength : (self.add fd type stale).pollFds.length ≤ self.pollFds.length + 1 := by
    rw [← length_fds, fds_add hlimit, ← length_fds]
    split
    · omega
    · rw [List.length_append, List.length_singleton]
  have hroom : self.pollFds.length + 1 ≤ (self.add fd type stale).limitSize := by
    rw [add_eq hlimit]
    simp only
    split <;> omega
  omega

/-- Nothing happens where there is no entry. -/
theorem del_of_notMem {self : FdSet} {fd : ℤ} (h : fd ∉ self.fds) (type : ℕ) :
    self.del fd type = self := by
  rw [del, findPollfd_eq_none h]

/-- The entry stays as long as there are events left in it. -/
theorem del_of_find {self : FdSet} {fd : ℤ} {pf : PollFd} (h : self.findPollfd fd = some pf)
    (type : ℕ) :
    self.del fd type =
      { self with
        pollFds :=
          if delEvents type pf.events = 0 then self.pollFds.eraseP (·.fd = fd)
          else
            modify (fun pf => { pf with events := delEvents type pf.events }) fd self.pollFds } := by
  rw [del, h]
  simp only
  split
  · rw [tryRemovePollFd]
    simp only [FdSet.mk.injEq, and_true]
    apply eraseP_modify
    intro pf
    rfl
  · rfl

/-- The array never becomes smaller. -/
theorem limitSize_del (self : FdSet) (fd : ℤ) (type : ℕ) :
    (self.del fd type).limitSize = self.limitSize := by
  by_cases h : fd ∈ self.fds
  · obtain ⟨pf, -, -, hfind⟩ := exists_findPollfd h
    rw [del_of_find hfind]
  · rw [del_of_notMem h]

/-- A descriptor loses its entry, or no entry comes or goes. -/
theorem fds_del (self : FdSet) (fd : ℤ) (type : ℕ) :
    (self.del fd type).fds = self.fds.erase fd ∨ (self.del fd type).fds = self.fds := by
  by_cases h : fd ∈ self.fds
  · obtain ⟨pf, -, -, hfind⟩ := exists_findPollfd h
    rw [del_of_find hfind, fds]
    by_cases hempty : delEvents type pf.events = 0
    · rw [if_pos hempty]
      exact .inl (map_eraseP_fd fd self.pollFds)
    · rw [if_neg hempty]
      right
      apply map_fd_modify
      intro pf
      rfl
  · exact .inr (by rw [del_of_notMem h])

theorem length_del_le {self : FdSet} (hlimit : self.pollFds.length ≤ self.limitSize) (fd : ℤ)
    (type : ℕ) : (self.del fd type).pollFds.length ≤ (self.del fd type).limitSize := by
  have hlength : (self.del fd type).fds.length ≤ self.fds.length := by
    rcases fds_del self fd type with h | h
    · rw [h]
      exact List.length_erase_le
    · rw [h]
  rw [limitSize_del]
  rw [length_fds, length_fds] at hlength
  omega

@[simp] theorem fds_poll (self : FdSet) (revents : ℤ → BitVec 16) :
    (self.poll revents).fds = self.fds := by
  simp only [fds, FdSet.poll, List.map_map]
  rfl

/-! ## Sets whose descriptors wait for writability -/

/-- An entry that is added for writing asks for the write events alone. -/
theorem addEvents_zero : addEvents (WriteCheck ||| ErrorCheck) 0 = CHECK_WRITE_FLAG := by decide

/-- And nothing is left in it when writing is taken off. -/
theorem delEvents_write : delEvents (WriteCheck ||| ErrorCheck) CHECK_WRITE_FLAG = 0 := by decide

/-- Every descriptor has one entry, in which the write events are asked for. -/
structure Writing (set : FdSet) : Prop where
  nodup : set.fds.Nodup
  events_eq : ∀ pf ∈ set.pollFds, pf.events = CHECK_WRITE_FLAG

theorem writing_new : new.Writing := ⟨List.nodup_nil, nofun⟩

/-- A new descriptor is added at the end of the array. -/
theorem add_of_notMem {self : FdSet} {fd : ℤ} (h : fd ∉ self.fds)
    (hlimit : self.pollFds.length ≤ self.limitSize) (stale : BitVec 16) :
    (self.add fd (WriteCheck ||| ErrorCheck) stale).pollFds =
      self.pollFds ++ [⟨fd, CHECK_WRITE_FLAG, stale⟩] := by
  rw [add_eq hlimit]
  show modify _ fd (self.opened fd stale) = _
  rw [opened, findPollfd_eq_none h, Option.isSome_none, if_neg Bool.false_ne_true,
    modify_append_of_notMem h, modify, if_pos rfl]
  simp only [addEvents_zero]

/-- A descriptor that was not in the set waits for writability from now on. -/
theorem Writing.add {self : FdSet} (hs : self.Writing) {fd : ℤ} (h : fd ∉ self.fds)
    (hlimit : self.pollFds.length ≤ self.limitSize) (stale : BitVec 16) :
    (self.add fd (WriteCheck ||| ErrorCheck) stale).Writing ∧
      ∀ x, x ∈ (self.add fd (WriteCheck ||| ErrorCheck) stale).fds ↔ x = fd ∨ x ∈ self.fds := by
  have hfds : (self.add fd (WriteCheck ||| ErrorCheck) stale).fds = self.fds ++ [fd] := by
    rw [fds_add hlimit, if_neg h]
  refine ⟨⟨?_, fun pf hpf => ?_⟩, fun x => ?_⟩
  · rw [hfds]
    rw [← List.concat_eq_append]
    exact hs.nodup.concat h
  · rw [add_of_notMem h hlimit] at hpf
    rcases List.mem_append.mp hpf with hpf | hpf
    · exact hs.events_eq pf hpf
    · rw [List.mem_singleton.mp hpf]
  · rw [hfds, List.mem_append, List.mem_singleton, or_comm]

/-- When both checks are taken off, the entry is removed. -/
theorem Writing.del_pollFds {self : FdSet} (hs : self.Writing) (fd : ℤ) :
    (self.del fd (WriteCheck ||| ErrorCheck)).pollFds = self.pollFds.eraseP (·.fd = fd) := by
  by_cases h : fd ∈ self.fds
  · obtain ⟨pf, hpf, -, hfind⟩ := exists_findPollfd h
    have hempty : delEvents (WriteCheck ||| ErrorCheck) pf.events = 0 := by
      rw [hs.events_eq pf hpf, delEvents_write]
    rw [del_of_find hfind, if_pos hempty]
  · rw [del_of_notMem h]
    refine (List.eraseP_of_forall_not fun pf hpf heq => h ?_).symm
    exact List.mem_map.mpr ⟨pf, hpf, of_decide_eq_true heq⟩

/-- A descriptor that is taken off has no entry any more. -/
theorem Writing.del {self : FdSet} (hs : self.Writing) (fd : ℤ) :
    (self.del fd (WriteCheck ||| ErrorCheck)).Writing ∧
      ∀ x, x ∈ (self.del fd (WriteCheck ||| ErrorCheck)).fds ↔ x ≠ fd ∧ x ∈ self.fds := by
  have hfds : (self.del fd (WriteCheck ||| ErrorCheck)).fds = self.fds.erase fd := by
    rw [fds, hs.del_pollFds, map_eraseP_fd]
    rfl
  refine ⟨⟨?_, fun pf hpf => ?_⟩, fun x => ?_⟩
  · rw [hfds]
    exact hs.nodup.erase fd
  · rw [hs.del_pollFds] at hpf
    exact hs.events_eq pf (List.mem_of_mem_eraseP hpf)
  · rw [hfds]
    exact hs.nodup.mem_erase_iff

theorem Writing.poll {self : FdSet} (hs : self.Writing) (revents : ℤ → BitVec 16) :
    (self.poll revents).Writing := by
  refine ⟨fds_poll self revents ▸ hs.nodup, fun pf hpf => ?_⟩
  obtain ⟨pf', hpf', rfl⟩ := List.mem_map.mp hpf
  exact hs.events_eq pf' hpf'

/-- After `poll` a check reads what `poll` reported. -/
theorem check_poll {self : FdSet} {fd : ℤ} (h : fd ∈ self.fds) (revents : ℤ → BitVec 16) :
    (self.poll revents).check fd WriteCheck = (revents fd &&& CHECK_WRITE_FLAG ≠ 0 : Bool) ∧
      (self.poll revents).check fd ErrorCheck = (revents fd &&& CHECK_ERROR_FLAG ≠ 0 : Bool) := by
  have hmem : fd ∈ (self.poll revents).fds := by
    rw [fds_poll]
    exact h
  obtain ⟨pf, hpf, hfd, hfind⟩ := exists_findPollfd hmem
  obtain ⟨pf', -, rfl⟩ := List.mem_map.mp hpf
  simp only at hfd
  subst hfd
  unfold check
  rw [hfind]
  exact ⟨by simp [ReadCheck, WriteCheck, ErrorCheck], by simp [ReadCheck, WriteCheck, ErrorCheck]⟩

end FdSet

end Netxy
