import Netxy.Utils.FdSet
import Mathlib.Data.List.Induction
import Mathlib.Logic.Function.Basic

/-!
# `fdset_s` as a map of interests

What the array of entries stands for: for every descriptor, whether somebody waits for it to be
readable and whether somebody waits for it to be writable. `ox_fdset_add` and `ox_fdset_del` are
the updates of that map at one descriptor, and the others keep their entries as they are.
-/

namespace Netxy

/-- What is waited for. -/
@[ext] structure Interest where
  read : Bool
  write : Bool
deriving DecidableEq, Repr

namespace Interest

/-- Nothing is waited for. -/
def nothing : Interest := ⟨false, false⟩

/-- The events of an entry with these interests. -/
def events (i : Interest) : BitVec 16 :=
  (if i.read then CHECK_READ_FLAG else 0) ||| (if i.write then CHECK_WRITE_FLAG else 0)

/-- The interests that `ox_fdset_add` leaves. -/
def add (i : Interest) (type : ℕ) : Interest :=
  ⟨i.read || type &&& ReadCheck ≠ 0, i.write || type &&& WriteCheck ≠ 0⟩

/-- The interests that `ox_fdset_del` leaves. -/
def del (i : Interest) (type : ℕ) : Interest :=
  ⟨i.read && type &&& ReadCheck = 0, i.write && type &&& WriteCheck = 0⟩

/-- The bits are set for the interests alone. -/
theorem addEvents_events (i : Interest) (type : ℕ) :
    FdSet.addEvents type i.events = (i.add type).events := by
  obtain ⟨r, w⟩ := i
  unfold FdSet.addEvents add
  by_cases hr : type &&& ReadCheck = 0 <;> by_cases hw : type &&& WriteCheck = 0 <;>
    simp only [hr, hw, ne_eq, not_true_eq_false, not_false_eq_true, if_true, if_false,
      decide_true, decide_false] <;>
    revert r w <;> decide

/-- No interest is lost to the error flags, which are bits of their own. -/
theorem delEvents_events (i : Interest) (type : ℕ) :
    FdSet.delEvents type i.events = (i.del type).events := by
  obtain ⟨r, w⟩ := i
  unfold FdSet.delEvents del
  by_cases hr : type &&& ReadCheck = 0 <;> by_cases hw : type &&& WriteCheck = 0 <;>
    by_cases he : type &&& ErrorCheck = 0 <;>
    simp only [hr, hw, he, ne_eq, not_true_eq_false, not_false_eq_true, if_true, if_false,
      decide_true, decide_false] <;>
    revert r w <;> decide

/-- The read bits say whether somebody waits to read. -/
theorem events_read (i : Interest) :
    i.events &&& CHECK_READ_FLAG = CHECK_READ_FLAG ↔ i.read = true := by
  obtain ⟨r, w⟩ := i
  revert r w
  decide

/-- The write bits say whether somebody waits to write. -/
theorem events_write (i : Interest) :
    i.events &&& CHECK_WRITE_FLAG = CHECK_WRITE_FLAG ↔ i.write = true := by
  obtain ⟨r, w⟩ := i
  revert r w
  decide

/-- An entry has events where somebody waits. -/
theorem events_ne_zero (i : Interest) : i.events ≠ 0 ↔ i.read = true ∨ i.write = true := by
  obtain ⟨r, w⟩ := i
  revert r w
  decide

end Interest

namespace FdSet

/-! ## The other descriptors -/

/-- The entries of the other descriptors, in their order. -/
def others (self : FdSet) (fd : ℤ) : List PollFd := self.pollFds.filter (·.fd ≠ fd)

/-- A write to one entry is not seen among the others. -/
theorem filter_modify {f : PollFd → PollFd} (hf : ∀ pf, (f pf).fd = pf.fd) (fd : ℤ)
    (l : List PollFd) : (modify f fd l).filter (·.fd ≠ fd) = l.filter (·.fd ≠ fd) := by
  induction l with
  | nil => rfl
  | cons pf pfs ih =>
    rw [modify]
    by_cases h : pf.fd = fd
    · rw [if_pos h, List.filter_cons_of_neg (by simp [hf, h]),
        List.filter_cons_of_neg (by simp [h])]
    · rw [if_neg h, List.filter_cons_of_pos (by simp [h]), ih,
        List.filter_cons_of_pos (by simp [h])]

/-- The removal of one entry is not seen among the others. -/
theorem filter_eraseP (fd : ℤ) (l : List PollFd) :
    (l.eraseP (·.fd = fd)).filter (·.fd ≠ fd) = l.filter (·.fd ≠ fd) := by
  induction l with
  | nil => rfl
  | cons pf pfs ih =>
    by_cases h : pf.fd = fd
    · rw [List.eraseP_cons_of_pos (by simpa using h), List.filter_cons_of_neg (by simp [h])]
    · rw [List.eraseP_cons_of_neg (by simpa using h), List.filter_cons_of_pos (by simp [h]),
        List.filter_cons_of_pos (by simp [h]), ih]

/-- The other entries stay as they are, and where they are. -/
theorem others_add {self : FdSet} (hlimit : self.pollFds.length ≤ self.limitSize) (fd : ℤ)
    (type : ℕ) (stale : BitVec 16) : (self.add fd type stale).others fd = self.others fd := by
  have hopened : (self.opened fd stale).filter (·.fd ≠ fd) = self.others fd := by
    rw [opened]
    split
    · rfl
    · rw [List.filter_append, List.filter_cons_of_neg (by simp), List.filter_nil, List.append_nil,
        others]
  rw [← hopened, add_eq hlimit, others]
  apply filter_modify
  intro pf
  rfl

/-- The `memmove` closes the gap, and changes no other entry. -/
theorem others_del (self : FdSet) (fd : ℤ) (type : ℕ) :
    (self.del fd type).others fd = self.others fd := by
  by_cases h : fd ∈ self.fds
  · obtain ⟨pf, -, -, hfind⟩ := exists_findPollfd h
    rw [del_of_find hfind, others]
    simp only
    split
    · exact filter_eraseP fd self.pollFds
    · apply filter_modify
      intro pf
      rfl
  · rw [del_of_notMem h]

/-- What is found for a descriptor is among the others of any different one. -/
theorem findPollfd_others (self : FdSet) {fd x : ℤ} (hx : x ≠ fd) :
    (self.others fd).find? (·.fd = x) = self.findPollfd x := by
  rw [others, findPollfd, List.find?_filter]
  congr
  funext pf
  by_cases h : pf.fd = x
  · simp [h, hx]
  · simp [h]

/-! ## The events that are asked for -/

/-- The events of the entry of a descriptor; nothing is asked for where there is none. -/
def events (self : FdSet) (fd : ℤ) : BitVec 16 := ((self.findPollfd fd).map PollFd.events).getD 0

/-- The same entries ask for the same events. -/
theorem events_of_others {self self' : FdSet} {fd : ℤ} (h : self'.others fd = self.others fd)
    {x : ℤ} (hx : x ≠ fd) : self'.events x = self.events x := by
  rw [events, events, ← findPollfd_others self' hx, h, findPollfd_others self hx]

/-- A descriptor without an entry asks for nothing. -/
theorem events_of_notMem {self : FdSet} {fd : ℤ} (h : fd ∉ self.fds) : self.events fd = 0 := by
  rw [events, findPollfd_eq_none h]
  rfl

/-- What is found after a write is the entry that was written to. -/
theorem find?_modify {f : PollFd → PollFd} (hf : ∀ pf, (f pf).fd = pf.fd) (fd : ℤ)
    (l : List PollFd) :
    (modify f fd l).find? (·.fd = fd) = (l.find? (·.fd = fd)).map f := by
  induction l with
  | nil => rfl
  | cons pf pfs ih =>
    rw [modify]
    by_cases h : pf.fd = fd
    · rw [if_pos h, List.find?_cons_of_pos (by simpa [hf] using h),
        List.find?_cons_of_pos (by simpa using h), Option.map_some]
    · rw [if_neg h, List.find?_cons_of_neg (by simpa using h),
        List.find?_cons_of_neg (by simpa using h), ih]

/-- The entry that `add` writes to asks for what was asked before. -/
theorem find?_opened (self : FdSet) (fd : ℤ) (stale : BitVec 16) :
    ∃ pf, (self.opened fd stale).find? (·.fd = fd) = some pf ∧ pf.events = self.events fd := by
  by_cases h : fd ∈ self.fds
  · obtain ⟨pf, -, -, hfind⟩ := exists_findPollfd h
    have hopened : self.opened fd stale = self.pollFds := by
      rw [opened, hfind, Option.isSome_some, if_pos rfl]
    rw [hopened, events, hfind]
    exact ⟨pf, hfind, rfl⟩
  · have hopened : self.opened fd stale = self.pollFds ++ [⟨fd, 0, stale⟩] := by
      rw [opened, findPollfd_eq_none h, Option.isSome_none, if_neg Bool.false_ne_true]
    have hnone : self.pollFds.find? (·.fd = fd) = none := findPollfd_eq_none h
    rw [hopened, events_of_notMem h, List.find?_append, hnone, Option.none_or,
      List.find?_cons_of_pos (by simp)]
    exact ⟨_, rfl, rfl⟩

/-- What is asked for after `add`, whether there was an entry or not. -/
theorem events_add {self : FdSet} (hlimit : self.pollFds.length ≤ self.limitSize) (fd : ℤ)
    (type : ℕ) (stale : BitVec 16) :
    (self.add fd type stale).events fd = addEvents type (self.events fd) := by
  obtain ⟨pf, hfind, hevents⟩ := find?_opened self fd stale
  have hadd : (self.add fd type stale).findPollfd fd =
      some { pf with events := addEvents type pf.events } := by
    rw [add_eq hlimit, findPollfd]
    apply (find?_modify _ fd (self.opened fd stale)).trans
    · rw [hfind, Option.map_some]
    · intro pf
      rfl
  rw [events, hadd, ← hevents]
  rfl

/-- From nothing nothing can be taken off. -/
theorem delEvents_zero (type : ℕ) : delEvents type 0 = 0 := by
  unfold delEvents
  split <;> split <;> split <;> simp

/-- An entry that is removed was the only one of its descriptor. -/
theorem events_del {self : FdSet} (hnodup : self.fds.Nodup) (fd : ℤ) (type : ℕ) :
    (self.del fd type).events fd = delEvents type (self.events fd) := by
  by_cases h : fd ∈ self.fds
  · obtain ⟨pf, -, -, hfind⟩ := exists_findPollfd h
    have hevents : self.events fd = pf.events := by
      rw [events, hfind]
      rfl
    rw [hevents, del_of_find hfind]
    by_cases hempty : delEvents type pf.events = 0
    · rw [if_pos hempty, hempty]
      apply events_of_notMem
      show fd ∉ (self.pollFds.eraseP (·.fd = fd)).map PollFd.fd
      rw [map_eraseP_fd]
      exact hnodup.not_mem_erase
    · have hkeep : (modify (fun pf => { pf with events := delEvents type pf.events }) fd
          self.pollFds).find? (·.fd = fd) =
            some { pf with events := delEvents type pf.events } := by
        apply (find?_modify _ fd self.pollFds).trans
        · rw [← findPollfd, hfind, Option.map_some]
        · intro pf
          rfl
      rw [if_neg hempty, events, findPollfd, hkeep]
      rfl
  · rw [del_of_notMem h, events_of_notMem h, delEvents_zero]

/-! ## The map of interests -/

/-- What the array stands for. -/
structure Represents (set : FdSet) (interests : ℤ → Interest) : Prop where
  nodup : set.fds.Nodup
  limit : set.pollFds.length ≤ set.limitSize
  events : ∀ fd, set.events fd = (interests fd).events

/-- Nobody waits in a new set. -/
theorem represents_new : new.Represents fun _ => Interest.nothing where
  nodup := List.nodup_nil
  limit := Nat.zero_le _
  events _ := events_of_notMem List.not_mem_nil

variable {self : FdSet} {interests : ℤ → Interest}

/-- `add` is the update of the map at one descriptor. -/
theorem Represents.add (h : self.Represents interests) (fd : ℤ) (type : ℕ) (stale : BitVec 16) :
    (self.add fd type stale).Represents
      (Function.update interests fd ((interests fd).add type)) := by
  constructor
  case nodup =>
    rw [fds_add h.limit]
    split
    · exact h.nodup
    · rename_i hnot
      rw [← List.concat_eq_append]
      exact h.nodup.concat hnot
  case limit => exact length_add_le h.limit fd type stale
  case events =>
    intro x
    by_cases hx : x = fd
    · rw [hx, Function.update_self, events_add h.limit, h.events, Interest.addEvents_events]
    · have hothers := others_add h.limit fd type stale
      rw [Function.update_of_ne hx, events_of_others hothers hx, h.events]

/-- So is `del`, also where it removes the entry. -/
theorem Represents.del (h : self.Represents interests) (fd : ℤ) (type : ℕ) :
    (self.del fd type).Represents (Function.update interests fd ((interests fd).del type)) := by
  constructor
  case nodup =>
    rcases fds_del self fd type with hfds | hfds
    · rw [hfds]
      exact h.nodup.erase fd
    · rw [hfds]
      exact h.nodup
  case limit => exact length_del_le h.limit fd type
  case events =>
    intro x
    by_cases hx : x = fd
    · rw [hx, Function.update_self, events_del h.nodup, h.events, Interest.delEvents_events]
    · rw [Function.update_of_ne hx, events_of_others (others_del self fd type) hx, h.events]

/-- Polling fills in what has happened, and asks for nothing else. -/
theorem Represents.poll (h : self.Represents interests) (revents : ℤ → BitVec 16) :
    (self.poll revents).Represents interests := by
  constructor
  case nodup =>
    rw [fds_poll]
    exact h.nodup
  case limit =>
    show (self.pollFds.map _).length ≤ self.limitSize
    rw [List.length_map]
    exact h.limit
  case events =>
    intro fd
    have hfind : (self.poll revents).findPollfd fd =
        (self.findPollfd fd).map fun pf => { pf with revents := revents pf.fd } := List.find?_map
    rw [FdSet.events, hfind, Option.map_map]
    exact h.events fd

/-! ## Runs -/

/-- A change of the set. -/
inductive Change
  | add (fd : ℤ) (type : ℕ) (stale : BitVec 16)
  | del (fd : ℤ) (type : ℕ)
deriving DecidableEq

namespace Change

/-- The call that makes the change. -/
def apply (self : FdSet) : Change → FdSet
  | add fd type stale => self.add fd type stale
  | del fd type => self.del fd type

def fd : Change → ℤ
  | add fd _ _ => fd
  | del fd _ => fd

def type : Change → ℕ
  | add _ type _ => type
  | del _ type => type

def isAdd : Change → Bool
  | add _ _ _ => true
  | del _ _ => false

/-- The change is one of the descriptor, and the check is among those it is for. -/
def Names (check : ℕ) (x : ℤ) (change : Change) : Prop :=
  change.fd = x ∧ change.type &&& check ≠ 0

instance (check : ℕ) (x : ℤ) : DecidablePred (Names check x) :=
  fun change => inferInstanceAs (Decidable (change.fd = x ∧ change.type &&& check ≠ 0))

/-- What becomes of the interests in the descriptor of the change. -/
def interest (i : Interest) : Change → Interest
  | add _ type _ => i.add type
  | del _ type => i.del type

/-- A change decides the checks it is for, and leaves the other one as it is. -/
theorem interest_eq (i : Interest) (change : Change) :
    change.interest i =
      ⟨if change.type &&& ReadCheck ≠ 0 then change.isAdd else i.read,
        if change.type &&& WriteCheck ≠ 0 then change.isAdd else i.write⟩ := by
  rcases change with ⟨x, type, stale⟩ | ⟨x, type⟩
  · by_cases hr : type &&& ReadCheck = 0 <;> by_cases hw : type &&& WriteCheck = 0 <;>
      simp [interest, Interest.add, Change.type, isAdd, hr, hw]
  · by_cases hr : type &&& ReadCheck = 0 <;> by_cases hw : type &&& WriteCheck = 0 <;>
      simp [interest, Interest.del, Change.type, isAdd, hr, hw]

end Change

/-- Every change is an update of the map at its own descriptor. -/
theorem Represents.apply (h : self.Represents interests) (change : Change) :
    (change.apply self).Represents
      (Function.update interests change.fd (change.interest (interests change.fd))) := by
  rcases change with ⟨fd, type, stale⟩ | ⟨fd, type⟩
  · exact h.add fd type stale
  · exact h.del fd type

/-- A change leaves the entries of the other descriptors as they are, and where they are. -/
theorem others_apply (hlimit : self.pollFds.length ≤ self.limitSize) (change : Change) :
    (change.apply self).others change.fd = self.others change.fd := by
  rcases change with ⟨fd, type, stale⟩ | ⟨fd, type⟩
  · exact others_add hlimit fd type stale
  · exact others_del self fd type

/-- A set after some changes, the first one in front. -/
def run (changes : List Change) : FdSet := changes.foldl (fun self change => change.apply self) new

/-- The last change that names the check for the descriptor, if there is one, added it. -/
def asked (check : ℕ) (fd : ℤ) (changes : List Change) : Bool :=
  (changes.reverse.find? (·.Names check fd)).any Change.isAdd

/-- The last change of the descriptor, if there is one, added something. -/
def added (fd : ℤ) (changes : List Change) : Bool :=
  (changes.reverse.find? (·.fd = fd)).any Change.isAdd

/-- Of some changes the last one comes first. -/
theorem find?_reverse_concat (p : Change → Bool) (changes : List Change) (change : Change) :
    (changes ++ [change]).reverse.find? p =
      if p change then some change else changes.reverse.find? p := by
  rw [List.reverse_append, List.reverse_singleton, List.singleton_append]
  split
  · rename_i h
    rw [List.find?_cons_of_pos h]
  · rename_i h
    rw [List.find?_cons_of_neg h]

/-- A change that names the check decides, and the others do not. -/
theorem asked_concat (check : ℕ) (fd : ℤ) (changes : List Change) (change : Change) :
    asked check fd (changes ++ [change]) =
      if change.Names check fd then change.isAdd else asked check fd changes := by
  rw [asked, find?_reverse_concat]
  by_cases h : change.Names check fd
  · rw [if_pos (by simpa using h), if_pos h, Option.any_some]
  · rw [if_neg (by simpa using h), if_neg h, asked]

/-- Every change of the descriptor decides. -/
theorem added_concat (fd : ℤ) (changes : List Change) (change : Change) :
    added fd (changes ++ [change]) =
      if change.fd = fd then change.isAdd else added fd changes := by
  rw [added, find?_reverse_concat]
  by_cases h : change.fd = fd
  · rw [if_pos (by simpa using h), if_pos h, Option.any_some]
  · rw [if_neg (by simpa using h), if_neg h, added]

/-- The interests after some changes. -/
def interestsOf (changes : List Change) (fd : ℤ) : Interest :=
  ⟨asked ReadCheck fd changes, asked WriteCheck fd changes⟩

theorem asked_concat_self (check : ℕ) (changes : List Change) (change : Change) :
    asked check change.fd (changes ++ [change]) =
      if change.type &&& check ≠ 0 then change.isAdd else asked check change.fd changes := by
  have hnames : change.Names check change.fd ↔ change.type &&& check ≠ 0 := and_iff_right rfl
  rw [asked_concat]
  simp only [hnames]

/-- The last change updates the map that there was before it. -/
theorem interestsOf_concat (changes : List Change) (change : Change) :
    interestsOf (changes ++ [change]) =
      Function.update (interestsOf changes) change.fd
        (change.interest (interestsOf changes change.fd)) := by
  funext fd
  by_cases hfd : fd = change.fd
  · subst hfd
    rw [Function.update_self, Change.interest_eq]
    apply Interest.ext
    · exact asked_concat_self ReadCheck changes change
    · exact asked_concat_self WriteCheck changes change
  · have hnames : ∀ check, ¬ change.Names check fd := fun check h => hfd h.1.symm
    rw [Function.update_of_ne hfd, interestsOf, asked_concat, asked_concat, if_neg (hnames _),
      if_neg (hnames _), interestsOf]

/-- The set stands for its changes, after any of them. -/
theorem represents_run (changes : List Change) :
    (run changes).Represents (interestsOf changes) := by
  induction changes using List.reverseRecOn with
  | nil => exact represents_new
  | append_singleton changes change ih =>
    rw [interestsOf_concat, run, List.foldl_append]
    exact ih.apply change

/-- `add` leaves an entry, also if it asks for nothing. -/
theorem mem_fds_add (hlimit : self.pollFds.length ≤ self.limitSize) (fd : ℤ) (type : ℕ)
    (stale : BitVec 16) : fd ∈ (self.add fd type stale).fds := by
  rw [fds_add hlimit]
  split
  · assumption
  · exact List.mem_append_right _ (List.mem_singleton_self fd)

/-- An entry that is left without events is removed. -/
theorem mem_fds_del (hnodup : self.fds.Nodup) (fd : ℤ) (type : ℕ) :
    fd ∈ (self.del fd type).fds ↔ (self.del fd type).events fd ≠ 0 := by
  constructor
  · intro hmem hzero
    by_cases h : fd ∈ self.fds
    · obtain ⟨pf, -, -, hfind⟩ := exists_findPollfd h
      have hempty : delEvents type pf.events = 0 := by
        rw [events_del hnodup, events, hfind] at hzero
        exact hzero
      rw [del_of_find hfind, if_pos hempty] at hmem
      have hmem' : fd ∈ self.fds.erase fd := by
        rw [fds, ← map_eraseP_fd]
        exact hmem
      exact hnodup.not_mem_erase hmem'
    · rw [del_of_notMem h] at hmem
      exact h hmem
  · intro hevents
    by_contra h
    exact hevents (events_of_notMem h)

/-- The same entries are those of the same descriptors. -/
theorem mem_fds_iff_of_others {self self' : FdSet} {fd : ℤ} (h : self'.others fd = self.others fd)
    {x : ℤ} (hx : x ≠ fd) : x ∈ self'.fds ↔ x ∈ self.fds := by
  have hothers : ∀ set : FdSet, x ∈ set.fds ↔ x ∈ (set.others fd).map PollFd.fd := by
    intro set
    simp only [fds, others, List.mem_map, List.mem_filter, decide_eq_true_eq]
    constructor
    · rintro ⟨pf, hpf, rfl⟩
      exact ⟨pf, ⟨hpf, by simpa using hx⟩, rfl⟩
    · rintro ⟨pf, ⟨hpf, -⟩, rfl⟩
      exact ⟨pf, hpf, rfl⟩
  rw [hothers self', hothers self, h]

/-- An entry in which nothing is asked for is one that the last change of its descriptor added,
for `ErrorCheck` alone. -/
theorem mem_fds_run (changes : List Change) (fd : ℤ) :
    fd ∈ (run changes).fds ↔ (run changes).events fd ≠ 0 ∨ added fd changes = true := by
  induction changes using List.reverseRecOn with
  | nil =>
    have hnone : fd ∉ (run []).fds := List.not_mem_nil
    rw [events_of_notMem hnone]
    simp [hnone, added]
  | append_singleton changes change ih =>
    have hrun := represents_run changes
    have hlast : run (changes ++ [change]) = change.apply (run changes) := by
      rw [run, List.foldl_append]
      rfl
    rw [hlast, added_concat]
    by_cases hfd : change.fd = fd
    · subst hfd
      rw [if_pos rfl]
      rcases change with ⟨x, type, stale⟩ | ⟨x, type⟩
      · exact iff_of_true (mem_fds_add hrun.limit x type stale) (.inr rfl)
      · show x ∈ ((run changes).del x type).fds ↔
          ((run changes).del x type).events x ≠ 0 ∨ false = true
        rw [mem_fds_del hrun.nodup, or_iff_left Bool.false_ne_true]
    · have hothers := others_apply hrun.limit change
      rw [if_neg hfd, mem_fds_iff_of_others hothers (Ne.symm hfd),
        events_of_others hothers (Ne.symm hfd), ih]

/-- The descriptor has an entry that asks for all of the events. -/
def Contains (self : FdSet) (fd : ℤ) (flag : BitVec 16) : Prop :=
  ∃ pf ∈ self.pollFds, pf.fd = fd ∧ pf.events &&& flag = flag

/-- With one entry a descriptor, its events can be asked for by the descriptor. -/
theorem contains_iff (hnodup : self.fds.Nodup) {flag : BitVec 16} (hflag : flag ≠ 0) (fd : ℤ) :
    self.Contains fd flag ↔ self.events fd &&& flag = flag := by
  by_cases h : fd ∈ self.fds
  · obtain ⟨pf, hpf, hfd, hfind⟩ := exists_findPollfd h
    have hevents : self.events fd = pf.events := by
      rw [events, hfind]
      rfl
    have hsame : ∀ pf' ∈ self.pollFds, pf'.fd = fd → pf' = pf := by
      intro pf' hpf' hfd'
      exact List.inj_on_of_nodup_map hnodup hpf' hpf (hfd'.trans hfd.symm)
    rw [hevents]
    constructor
    · rintro ⟨pf', hpf', hfd', hcontains⟩
      rw [← hsame pf' hpf' hfd']
      exact hcontains
    · intro hcontains
      exact ⟨pf, hpf, hfd, hcontains⟩
  · have hzero : (0 : BitVec 16) &&& flag = 0 := BitVec.zero_and
    rw [events_of_notMem h, hzero]
    apply iff_of_false
    · rintro ⟨pf, hpf, hfd, -⟩
      exact h (List.mem_map.mpr ⟨pf, hpf, hfd⟩)
    · exact hflag.symm

/-- After any changes, each descriptor has at most one entry, which asks for just what the last
changes that named it have left, and a further change leaves the entries of the others alone.
There is an entry where something is asked for, and where the last change of the descriptor was
an `add`, and nowhere else. -/
theorem run_represents_asked (changes : List Change) :
    (run changes).fds.Nodup ∧ (run changes).pollFds.length ≤ (run changes).limitSize ∧
      (∀ fd, (run changes).Contains fd CHECK_READ_FLAG ↔ asked ReadCheck fd changes) ∧
      (∀ fd, (run changes).Contains fd CHECK_WRITE_FLAG ↔ asked WriteCheck fd changes) ∧
      (∀ fd, (run changes).events fd =
        (Interest.mk (asked ReadCheck fd changes) (asked WriteCheck fd changes)).events) ∧
      (∀ fd, fd ∈ (run changes).fds ↔
        asked ReadCheck fd changes ∨ asked WriteCheck fd changes ∨ added fd changes) ∧
      ∀ change : Change,
        (run (changes ++ [change])).others change.fd = (run changes).others change.fd := by
  have hrun := represents_run changes
  have hread : CHECK_READ_FLAG ≠ 0 := by decide
  have hwrite : CHECK_WRITE_FLAG ≠ 0 := by decide
  refine ⟨hrun.nodup, hrun.limit, fun fd => ?_, fun fd => ?_, hrun.events, fun fd => ?_,
    fun change => ?_⟩
  · rw [contains_iff hrun.nodup hread, hrun.events, Interest.events_read, interestsOf]
  · rw [contains_iff hrun.nodup hwrite, hrun.events, Interest.events_write, interestsOf]
  · rw [mem_fds_run, hrun.events, Interest.events_ne_zero, interestsOf, or_assoc]
  · rw [run, List.foldl_append]
    exact others_apply hrun.limit change

end FdSet

end Netxy
