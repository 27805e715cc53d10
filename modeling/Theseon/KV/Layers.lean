import Theseon.KV.Versions

/-!
# Layers of versions

A read asks its sources one after the other and takes the first answer.  That
answer is the newest visible version of all sources when every earlier source
covers the later ones: a version in a later source is newer than a version of
the same key in an earlier source only if the earlier source has it as well.
-/

namespace Theseon.KV

open Lib List

/-- Whatever `older` holds that is newer than a version in `newer` is also in
`newer`. -/
def Covers (newer older : List Entry) : Prop :=
  ∀ first ∈ newer, ∀ second ∈ older, second.user = first.user → first.seq < second.seq →
    second ∈ newer

section Append

variable {newer older : List Entry} {user : Bytes} {maxSeq : Nat}

/-- A hit in the newer source is final. -/
theorem NewestAt.append_some {value : Value} (covers : Covers newer older)
    (hit : NewestAt newer user maxSeq (some value)) :
    NewestAt (newer ++ older) user maxSeq (some value) := by
  obtain ⟨entry, entryMem, entryUser, visible, valueEq, newest⟩ := hit
  refine ⟨entry, mem_append_left _ entryMem, entryUser, visible, valueEq, ?_⟩
  intro other otherMem otherUser otherVisible
  by_contra tooNew
  have above : entry.seq < other.seq := not_le.mp tooNew
  rcases mem_append.mp otherMem with inNewer | inOlder
  · exact tooNew (newest other inNewer otherUser otherVisible)
  · have covered := covers entry entryMem other inOlder (otherUser.trans entryUser.symm) above
    exact tooNew (newest other covered otherUser otherVisible)

/-- After a miss in the newer source the older one decides. -/
theorem NewestAt.append_none {result : Option Value} (miss : NewestAt newer user maxSeq none)
    (answer : NewestAt older user maxSeq result) :
    NewestAt (newer ++ older) user maxSeq result := by
  cases result with
  | none =>
    intro entry entryMem entryUser
    rcases mem_append.mp entryMem with inNewer | inOlder
    · exact miss entry inNewer entryUser
    · exact answer entry inOlder entryUser
  | some value =>
    obtain ⟨entry, entryMem, entryUser, visible, valueEq, newest⟩ := answer
    refine ⟨entry, mem_append_right _ entryMem, entryUser, visible, valueEq, ?_⟩
    intro other otherMem otherUser otherVisible
    rcases mem_append.mp otherMem with inNewer | inOlder
    · exact absurd otherVisible (not_le.mpr (miss other inNewer otherUser))
    · exact newest other inOlder otherUser otherVisible

end Append

section FirstHit

universe u

variable {ι : Type u} (contents : ι → List Entry)

/-- Every source covers all later ones. -/
def Layered (sources : List ι) : Prop :=
  sources.Pairwise fun newer older => Covers (contents newer) (contents older)

/-- The first answer of layered sources is the newest visible version of all. -/
theorem Layered.findSome?_newestAt {sources : List ι} (layered : Layered contents sources)
    {user : Bytes} {maxSeq : Nat} {get : ι → Option Value}
    (answers : ∀ source ∈ sources, NewestAt (contents source) user maxSeq (get source)) :
    NewestAt (sources.flatMap contents) user maxSeq (sources.findSome? get) := by
  induction sources with
  | nil => simp [NewestAt]
  | cons source rest ih =>
    obtain ⟨covers, restLayered⟩ := pairwise_cons.mp layered
    have answer := answers source (by simp)
    rw [flatMap_cons, findSome?_cons]
    cases found : get source with
    | some value =>
      rw [found] at answer
      refine answer.append_some ?_
      intro first firstMem second secondMem sameUser above
      obtain ⟨older, olderMem, inOlder⟩ := mem_flatMap.mp secondMem
      exact covers older olderMem first firstMem second inOlder sameUser above
    | none =>
      rw [found] at answer
      exact answer.append_none (ih restLayered fun other otherMem =>
        answers other (mem_cons_of_mem _ otherMem))

end FirstHit

end Theseon.KV
