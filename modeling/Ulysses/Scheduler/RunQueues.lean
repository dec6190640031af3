import Ulysses.Scheduler.Basic

/-!
# The two run queues

One link per thread serves both lists, so an operation on the list that a thread is
not in would break both. `Ok q rs ws` says that the lists are `rs` and `ws` and that
links are set only in them; each operation keeps it for a thread that is not in the
other list.
-/

namespace Ulysses

open Lib

namespace RunQueues

/-- The lists have these elements, none in common, and links are set only in
them. -/
structure Ok (q : RunQueues) (rs ws : List Tid) : Prop where
  ready : q.ready.Rep q.nodes rs
  waiting : q.waiting.Rep q.nodes ws
  disjoint : ∀ t ∈ rs, t ∉ ws
  linked : ∀ t, (q.nodes t).linked = true → t ∈ rs ∨ t ∈ ws

variable {q : RunQueues} {rs ws : List Tid} {t : Tid}

theorem Ok.unlinkReady (h : q.Ok rs ws) (hw : t ∉ ws) : (q.unlinkReady t).Ok (rs.erase t) ws := by
  obtain ⟨hrep, hun, hother⟩ := h.ready.erase fun hl => (h.linked t hl).resolve_right hw
  refine ⟨hrep, h.waiting.congr fun u hu => hother u fun hr => h.disjoint u hr hu,
    fun u hu => h.disjoint u (List.mem_of_mem_erase hu),
    fun u (hu : ((q.ready.unlink t q.nodes).1 u).linked = true) => ?_⟩
  have hut : u ≠ t := by
    rintro rfl
    rw [hun] at hu
    cases hu
  by_cases hr : u ∈ rs
  · exact .inl ((List.mem_erase_of_ne hut).2 hr)
  · rw [hother u hr] at hu
    exact .inr ((h.linked u hu).resolve_left hr)

theorem Ok.unlinkWaiting (h : q.Ok rs ws) (hr : t ∉ rs) :
    (q.unlinkWaiting t).Ok rs (ws.erase t) := by
  obtain ⟨hrep, hun, hother⟩ := h.waiting.erase fun hl => (h.linked t hl).resolve_left hr
  refine ⟨h.ready.congr fun u hu => hother u (h.disjoint u hu), hrep,
    fun u hu hw => h.disjoint u hu (List.mem_of_mem_erase hw),
    fun u (hu : ((q.waiting.unlink t q.nodes).1 u).linked = true) => ?_⟩
  have hut : u ≠ t := by
    rintro rfl
    rw [hun] at hu
    cases hu
  by_cases hw : u ∈ ws
  · exact .inr ((List.mem_erase_of_ne hut).2 hw)
  · rw [hother u hw] at hu
    exact .inl ((h.linked u hu).resolve_right hw)

theorem Ok.prependReady (h : q.Ok rs ws) (hw : t ∉ ws) :
    (q.prependReady t).Ok (rs.insert t) ws := by
  obtain ⟨hrep, hother⟩ := h.ready.insert fun hl => (h.linked t hl).resolve_right hw
  refine ⟨hrep, h.waiting.congr fun u hu => hother u (fun hr => h.disjoint u hr hu) ?_,
    fun u hu => ?_, fun u (hu : ((q.ready.prepend t q.nodes).1 u).linked = true) => ?_⟩
  · rintro rfl
    exact hw hu
  · rcases List.mem_insert_iff.1 hu with rfl | hu
    · exact hw
    · exact h.disjoint u hu
  · rw [List.mem_insert_iff]
    by_cases hut : u = t
    · exact .inl (.inl hut)
    by_cases hr : u ∈ rs
    · exact .inl (.inr hr)
    · rw [hother u hr hut] at hu
      exact .inr ((h.linked u hu).resolve_left hr)

theorem Ok.unlinked (h : q.Ok rs ws) (hr : t ∉ rs) (hw : t ∉ ws) :
    (q.nodes t).linked = false := by
  rw [← Bool.not_eq_true]
  exact fun hl => (h.linked t hl).elim hr hw

theorem Ok.appendReady (h : q.Ok rs ws) (hr : t ∉ rs) (hw : t ∉ ws) :
    (q.appendReady t).Ok (rs ++ [t]) ws := by
  obtain ⟨hrep, hother⟩ := h.ready.append (h.unlinked hr hw)
  have hkept : ∀ u, u ∉ rs → u ≠ t → (q.ready.append t q.nodes).1 u = q.nodes u :=
    fun u hu hut => hother u (by simp [hu, hut])
  refine ⟨hrep, h.waiting.congr fun u hu => hkept u (fun hr => h.disjoint u hr hu) ?_,
    fun u hu => ?_, fun u (hu : ((q.ready.append t q.nodes).1 u).linked = true) => ?_⟩
  · rintro rfl
    exact hw hu
  · rcases List.mem_append.1 hu with hu | hu
    · exact h.disjoint u hu
    · exact List.mem_singleton.1 hu ▸ hw
  · by_cases hut : u = t
    · exact .inl (by simp [hut])
    by_cases hr : u ∈ rs
    · exact .inl (by simp [hr])
    · rw [hkept u hr hut] at hu
      exact .inr ((h.linked u hu).resolve_left hr)

theorem Ok.prependWaiting (h : q.Ok rs ws) (hr : t ∉ rs) (hw : t ∉ ws) :
    (q.prependWaiting t).Ok rs (t :: ws) := by
  obtain ⟨hrep, hother⟩ := h.waiting.prepend (h.unlinked hr hw)
  have hkept : ∀ u, u ∉ ws → u ≠ t → (q.waiting.prepend t q.nodes).1 u = q.nodes u :=
    fun u hu hut => hother u (by simp [hu, hut])
  refine ⟨h.ready.congr fun u hu => hkept u (h.disjoint u hu) ?_, hrep, fun u hu => ?_,
    fun u (hu : ((q.waiting.prepend t q.nodes).1 u).linked = true) => ?_⟩
  · rintro rfl
    exact hr hu
  · rintro hu'
    rcases List.mem_cons.1 hu' with rfl | hu'
    · exact hr hu
    · exact h.disjoint u hu hu'
  · by_cases hut : u = t
    · exact .inr (by simp [hut])
    by_cases hw : u ∈ ws
    · exact .inr (by simp [hw])
    · rw [hkept u hw hut] at hu
      exact .inl ((h.linked u hu).resolve_right hw)

/-- A thread that is in no list may get a new link. -/
theorem Ok.blank (h : q.Ok rs ws) (hr : t ∉ rs) (hw : t ∉ ws) :
    RunQueues.Ok { q with nodes := Function.update q.nodes t LinkedList.blank } rs ws := by
  have hother : ∀ u, u ≠ t → Function.update q.nodes t LinkedList.blank u = q.nodes u :=
    fun u hu => Function.update_of_ne hu _ _
  refine ⟨h.ready.congr fun u hu => hother u fun heq => hr (heq ▸ hu),
    h.waiting.congr fun u hu => hother u fun heq => hw (heq ▸ hu), h.disjoint, fun u hu => ?_⟩
  by_cases hut : u = t
  · subst hut
    simp [LinkedList.blank] at hu
  · exact h.linked u (by simpa [hother u hut] using hu)

end RunQueues

end Ulysses
