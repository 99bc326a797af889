import Pixy.Poll.IOPoller

/-!
# Registrations

What the poller is for, said without links and flags: there is a list of registrations, and for
every descriptor and condition the watches registered for them, in order. `mask` is the set of
conditions as the bits that the kernel and the events hold.
-/

namespace Pixy.Poll

/-! ## Masks -/

/-- The bits of some conditions. -/
def mask (wanted : IOCondition → Bool) : BitVec 32 :=
  (if wanted .ioReadable then epollIn else 0) ||| (if wanted .ioWritable then epollOut else 0)

section Masks

variable (wanted : IOCondition → Bool) (condition : IOCondition)

/-- A flag is missing in the mask exactly if its condition is not wanted: different conditions have
different flags. -/
theorem mask_and_eq_zero : mask wanted &&& ioEventFlags condition = 0 ↔
    wanted condition = false := by
  cases condition <;> cases hr : wanted .ioReadable <;> cases hw : wanted .ioWritable <;>
    simp [mask, hr, hw, ioEventFlags, epollIn, epollOut]

/-- Adding a flag to the mask makes its condition wanted, and no other. -/
theorem mask_or :
    mask wanted ||| ioEventFlags condition = mask (Function.update wanted condition true) := by
  cases condition <;> cases hr : wanted .ioReadable <;> cases hw : wanted .ioWritable <;>
    simp [mask, hr, hw, ioEventFlags, epollIn, epollOut]

/-- Taking a flag out of the mask makes its condition unwanted, and no other. -/
theorem mask_and_not :
    mask wanted &&& ~~~ioEventFlags condition = mask (Function.update wanted condition false) := by
  cases condition <;> cases hr : wanted .ioReadable <;> cases hw : wanted .ioWritable <;>
    simp [mask, hr, hw, ioEventFlags, epollIn, epollOut]

/-- The mask is zero exactly if no condition is wanted, which is when the event may be freed. -/
theorem mask_eq_zero : mask wanted = 0 ↔ ∀ condition, wanted condition = false := by
  constructor
  · intro h condition
    rw [← mask_and_eq_zero, h]
    exact BitVec.zero_and
  · intro h
    simp [mask, h]

end Masks

/-! ## The watches of a descriptor -/

/-- The watches registered for a descriptor and a condition, in order. -/
def watchesOf (registered : List Registration) (fd : FD) (condition : IOCondition) : List WatchId :=
  (registered.filter fun r => r.fd = fd ∧ r.condition = condition).map (·.watch)

/-- There is one. -/
def watched (registered : List Registration) (fd : FD) (condition : IOCondition) : Bool :=
  !(watchesOf registered fd condition).isEmpty

section WatchesOf

variable {registered : List Registration} {fd fd' : FD} {condition condition' : IOCondition}
  {watch : WatchId}

/-- The watches of a descriptor and condition are those that are registered for both. -/
theorem mem_watchesOf :
    watch ∈ watchesOf registered fd condition ↔ ⟨watch, fd, condition⟩ ∈ registered := by
  simp only [watchesOf, List.mem_map, List.mem_filter, decide_eq_true_eq]
  constructor
  · rintro ⟨⟨w, f, c⟩, ⟨hr, hf, hc⟩, hw⟩
    simp only at hf hc hw
    exact hw ▸ hf ▸ hc ▸ hr
  · exact fun hr => ⟨_, ⟨hr, rfl, rfl⟩, rfl⟩

/-- A condition is not watched at a descriptor if there is no watch for it, which is when its ring
is empty. -/
theorem watched_eq_false : watched registered fd condition = false ↔
    watchesOf registered fd condition = [] := by
  simp [watched]

/-- A condition is watched at a descriptor if somebody has registered for it there. -/
theorem watched_eq_true : watched registered fd condition = true ↔
    ∃ r ∈ registered, r.fd = fd ∧ r.condition = condition := by
  rw [← Bool.not_eq_false, watched_eq_false, List.eq_nil_iff_forall_not_mem]
  push Not
  constructor
  · rintro ⟨w, hw⟩
    exact ⟨_, mem_watchesOf.mp hw, rfl, rfl⟩
  · rintro ⟨r, hr, rfl, rfl⟩
    exact ⟨r.watch, mem_watchesOf.mpr hr⟩

/-- Without any registration for a descriptor nothing is watched there, under no condition. -/
theorem watched_of_forall (h : ∀ r ∈ registered, r.fd ≠ fd) :
    watched registered fd condition = false := by
  rw [← Bool.not_eq_true, watched_eq_true]
  rintro ⟨r, hr, hf, -⟩
  exact h r hr hf

/-- No watch is twice in a list, since none is registered twice. -/
theorem nodup_watchesOf (h : (registered.map (·.watch)).Nodup) :
    (watchesOf registered fd condition).Nodup :=
  h.sublist (List.filter_sublist.map _)

/-- A watch is registered at most once, so its descriptor and its condition are those of its only
registration. -/
theorem registration_unique (h : (registered.map (·.watch)).Nodup)
    (hr : ⟨watch, fd, condition⟩ ∈ registered) (hr' : ⟨watch, fd', condition'⟩ ∈ registered) :
    fd = fd' ∧ condition = condition' := by
  have := List.inj_on_of_nodup_map h hr hr' rfl
  simpa using this

/-! ### A new registration -/

/-- A new registration comes last among the watches of its own descriptor and condition. -/
theorem watchesOf_append_self : watchesOf (registered ++ [⟨watch, fd, condition⟩]) fd condition =
    watchesOf registered fd condition ++ [watch] := by
  simp [watchesOf]

/-- A new registration leaves the watches of another descriptor or condition as they are. -/
theorem watchesOf_append_other (h : ¬(fd = fd' ∧ condition = condition')) :
    watchesOf (registered ++ [⟨watch, fd, condition⟩]) fd' condition' =
      watchesOf registered fd' condition' := by
  simp [watchesOf, List.filter_append, h]

/-- A new registration makes its condition watched at its descriptor, and changes nothing for the
others. -/
theorem watched_append : watched (registered ++ [⟨watch, fd, condition⟩]) fd =
    Function.update (watched registered fd) condition true := by
  funext c
  by_cases hc : c = condition
  · subst hc
    simp [watched, watchesOf_append_self]
  · have : ¬(fd = fd ∧ condition = c) := fun h => hc h.2.symm
    simp [watched, watchesOf_append_other this, hc]

/-! ### One registration less -/

/-- Without a watch, the watches of any descriptor and condition are the others, in their order. -/
theorem watchesOf_erase : watchesOf (registered.filter fun r => r.watch ≠ watch) fd condition =
    (watchesOf registered fd condition).filter (· ≠ watch) := by
  simp only [watchesOf, List.filter_map, List.filter_filter]
  congr 1
  refine List.filter_congr fun r _ => ?_
  simp [Bool.and_comm]

/-- Taking a watch away leaves the lists alone in which it is not registered. -/
theorem watchesOf_erase_other (h : ⟨watch, fd, condition⟩ ∉ registered) :
    watchesOf (registered.filter fun r => r.watch ≠ watch) fd condition =
      watchesOf registered fd condition := by
  rw [watchesOf_erase, List.filter_eq_self]
  intro w hw
  simp only [ne_eq, decide_not, Bool.not_eq_eq_eq_not, Bool.not_true, decide_eq_false_iff_not]
  exact fun he => h (mem_watchesOf.mp (he ▸ hw))

/-- Taking a watch away cuts it out of the place where it stands in its own list. -/
theorem watchesOf_erase_self {l l' : List WatchId} (h : (registered.map (·.watch)).Nodup)
    (hl : watchesOf registered fd condition = l ++ watch :: l') :
    watchesOf (registered.filter fun r => r.watch ≠ watch) fd condition = l ++ l' := by
  have hnodup : (l ++ watch :: l').Nodup := hl ▸ nodup_watchesOf h
  obtain ⟨-, hr, hd⟩ := List.nodup_append.mp hnodup
  rw [watchesOf_erase, hl, List.filter_append, List.filter_cons_of_neg (by simp)]
  congr 1 <;> rw [List.filter_eq_self] <;> intro w hw
  · simpa using hd w hw watch List.mem_cons_self
  · simpa using fun he : w = watch => (List.nodup_cons.mp hr).1 (he ▸ hw)

/-- For another descriptor or another condition the same is watched after one registration has gone.
-/
theorem watched_erase_other (h : (registered.map (·.watch)).Nodup)
    (hr : ⟨watch, fd, condition⟩ ∈ registered) (hne : ¬(fd' = fd ∧ condition' = condition)) :
    watched (registered.filter fun r => r.watch ≠ watch) fd' condition' =
      watched registered fd' condition' := by
  rw [watched, watched, watchesOf_erase_other fun hr' => hne ?_]
  exact registration_unique h hr' hr

/-- Without its only watch a condition is watched no more, and the other conditions are as before.
-/
theorem watched_erase_only (h : (registered.map (·.watch)).Nodup)
    (hl : watchesOf registered fd condition = [watch]) :
    watched (registered.filter fun r => r.watch ≠ watch) fd =
      Function.update (watched registered fd) condition false := by
  have hr : ⟨watch, fd, condition⟩ ∈ registered := mem_watchesOf.mp (by simp [hl])
  funext condition'
  by_cases hc : condition' = condition
  · subst hc
    rw [Function.update_self, watched_eq_false]
    have herase : _ = [] ++ [] := watchesOf_erase_self h hl
    exact herase
  · rw [Function.update_of_ne hc]
    exact watched_erase_other h hr fun heq => hc heq.2

/-- Without one of several watches of a condition the condition is watched still, so what is watched
of the descriptor stays. -/
theorem watched_erase_more {l l' : List WatchId} (h : (registered.map (·.watch)).Nodup)
    (hl : watchesOf registered fd condition = l ++ watch :: l') (hmore : ¬(l = [] ∧ l' = [])) :
    watched (registered.filter fun r => r.watch ≠ watch) fd = watched registered fd := by
  have hr : ⟨watch, fd, condition⟩ ∈ registered := mem_watchesOf.mp (by simp [hl])
  funext condition'
  by_cases hc : condition' = condition
  · subst hc
    rw [watched, watched, watchesOf_erase_self h hl, hl]
    cases l <;> cases l' <;> simp_all
  · exact watched_erase_other h hr fun heq => hc heq.2

/-! ### A descriptor without registrations -/

/-- Taking away all registrations of a descriptor leaves it without watches, for either
condition. -/
theorem watchesOf_clear_self :
    watchesOf (registered.filter fun r => r.fd ≠ fd) fd condition = [] := by
  simp only [watchesOf, List.map_eq_nil_iff, List.filter_filter, List.filter_eq_nil_iff]
  simp +contextual

/-- Taking away all registrations of a descriptor leaves those of any other as they are. -/
theorem watchesOf_clear_other (h : fd' ≠ fd) :
    watchesOf (registered.filter fun r => r.fd ≠ fd) fd' condition =
      watchesOf registered fd' condition := by
  simp only [watchesOf, List.filter_filter]
  congr 1
  refine List.filter_congr fun r _ => ?_
  by_cases hr : r.fd = fd' <;> simp [hr, h]

end WatchesOf

end Pixy.Poll
