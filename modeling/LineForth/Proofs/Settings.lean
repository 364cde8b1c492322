import LineForth.Session

/-!
# The settings of a session

However settings are grouped, a session is made of the settings that are there, in order
(`new_eq`): a group stands for its members, and an empty place for nothing.
-/

namespace LineForth

theorem Settings.toList_ofList (ss : List Setting) : (ofList ss).toList = ss := by
  unfold ofList
  split <;> rfl

namespace SettingTree

mutual

/-- The settings of a tree in order. -/
def leaves : SettingTree → List Setting
  | .absent => []
  | .one s => [s]
  | .group ts => leavesOf ts

def leavesOf : List SettingTree → List Setting
  | [] => []
  | t :: ts => t.leaves ++ leavesOf ts

end

mutual

theorem listed_value : ∀ t : SettingTree, Settings.listed t.value = t.leaves
  | .absent => rfl
  | .one _ => rfl
  | .group ts => by
    rw [value, leaves, ← listed_values ts]
    exact Settings.toList_ofList _

theorem listed_values : ∀ ts : List SettingTree, (values ts).flatMap Settings.listed = leavesOf ts
  | [] => rfl
  | t :: ts => by rw [values, leavesOf, List.flatMap_cons, listed_value t, listed_values ts]

end

end SettingTree

theorem Session.new_eq (trees : List SettingTree) (listing : Stack → Text) :
    Session.new trees listing
      = { (blank listing).applyAll (SettingTree.leavesOf trees) with
          core := ((blank listing).applyAll (SettingTree.leavesOf trees)).core.boot } := by
  unfold Session.new Session.ofSettings Settings.combine
  rw [Settings.toList_ofList, SettingTree.listed_values]

end LineForth
