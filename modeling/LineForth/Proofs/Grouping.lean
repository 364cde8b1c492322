import LineForth.Proofs.Settings

/-!
# Groups of settings

A group can be put together one level at a time: an empty place adds nothing to it, a group adds its
members as they are, and a single member is not put into a group at all (`SettingTree.gather`).
This looks at no member of a member.  But where groups come from gathering only, nothing is left
below their members: what is gathered is one setting, or a list of settings (`gather_eq_flat`).  So
applying it, group by group, is applying its settings in order (`setUp_gather`).
-/

namespace LineForth

namespace SettingTree

/-- What a place adds to a group. -/
def members : SettingTree → List SettingTree
  | .absent => []
  | .one s => [.one s]
  | .group ts => ts

/-- Puts a group together from what stands in its places; a single member stays itself. -/
def gather (places : List SettingTree) : SettingTree :=
  match places.flatMap members with
  | [t] => t
  | ts => .group ts

mutual

/-- The value of a tree whose groups are put together from the inside out. -/
def gathered : SettingTree → SettingTree
  | .absent => .absent
  | .one s => .one s
  | .group ts => gather (gatheredAll ts)

def gatheredAll : List SettingTree → List SettingTree
  | [] => []
  | t :: ts => t.gathered :: gatheredAll ts

end

/-- A single setting, or a list of any other number of them, with no empty place and no group. -/
def flat : List Setting → SettingTree
  | [s] => .one s
  | ss => .group (ss.map .one)

mutual

/-- Applies a setting, or a group from its first member to its last.  An empty place cannot be
applied. -/
def applyTo (s : Session) : SettingTree → Option Session
  | .absent => none
  | .one setting => some (s.apply setting)
  | .group ts => applyAllTo s ts

def applyAllTo (s : Session) : List SettingTree → Option Session
  | [] => some s
  | t :: ts => (applyTo s t).bind fun s => applyAllTo s ts

end

/-- A new session, set up by what a tree stands for. -/
def setUp (t : SettingTree) (listing : Stack → Text) : Option Session :=
  (t.applyTo (.blank listing)).map fun s => { s with core := s.core.boot }

section Gathering

theorem members_flat (ss : List Setting) : (flat ss).members = ss.map .one := by
  unfold flat
  split <;> rfl

theorem flat_of_length_ne {ss : List Setting} (h : ss.length ≠ 1) :
    flat ss = .group (ss.map .one) := by
  rcases ss with _ | ⟨s, _ | ⟨s', ss⟩⟩
  · rfl
  · exact absurd rfl h
  · rfl

theorem gather_of_members {places : List SettingTree} {ss : List Setting}
    (h : places.flatMap members = ss.map .one) : gather places = flat ss := by
  unfold gather flat
  rw [h]
  rcases ss with _ | ⟨s, _ | ⟨s', ss⟩⟩ <;> rfl

mutual

/-- What a tree adds to a group, once its own groups are put together, is its settings. -/
theorem members_gathered : ∀ t : SettingTree, t.gathered.members = t.leaves.map .one
  | .absent => rfl
  | .one _ => rfl
  | .group ts => by
    rw [gathered, gather_of_members (members_gatheredAll ts), members_flat, leaves]

theorem members_gatheredAll : ∀ ts : List SettingTree,
    (gatheredAll ts).flatMap members = (leavesOf ts).map .one
  | [] => rfl
  | t :: ts => by
    rw [gatheredAll, leavesOf, List.flatMap_cons, members_gathered t, members_gatheredAll ts,
      List.map_append]

end

theorem gather_eq_flat (ts : List SettingTree) : gather (gatheredAll ts) = flat (leavesOf ts) :=
  gather_of_members (members_gatheredAll ts)

theorem leavesOf_ones : ∀ ss : List Setting, leavesOf (ss.map .one) = ss
  | [] => rfl
  | s :: ss => by
    rw [List.map_cons, leavesOf, leavesOf_ones ss]
    rfl

end Gathering

section Applying

theorem applyAllTo_ones : ∀ (ss : List Setting) (s : Session),
    applyAllTo s (ss.map .one) = some (s.applyAll ss)
  | [], _ => rfl
  | setting :: ss, s => by
    rw [List.map_cons, applyAllTo, applyTo, Option.bind_some, applyAllTo_ones ss]
    rfl

theorem applyTo_flat (ss : List Setting) (s : Session) :
    (flat ss).applyTo s = some (s.applyAll ss) := by
  unfold flat
  split
  · rfl
  · rw [applyTo, applyAllTo_ones]

theorem setUp_gather (trees : List SettingTree) (listing : Stack → Text) :
    (gather (gatheredAll trees)).setUp listing = some (Session.new trees listing) := by
  rw [setUp, gather_eq_flat, applyTo_flat, Session.new_eq]
  rfl

end Applying

end SettingTree

/-- The tree that stands for settings. -/
def Settings.toTree : Settings → SettingTree
  | .single s => .one s
  | .many ss => .group (ss.map .one)

theorem Settings.toTree_combine (trees : List SettingTree) :
    (Settings.combine (SettingTree.values trees)).toTree
      = SettingTree.flat (SettingTree.leavesOf trees) := by
  rw [combine, SettingTree.listed_values]
  rcases SettingTree.leavesOf trees with _ | ⟨s, _ | ⟨s', ss⟩⟩ <;> rfl

/-- Grouping is immaterial.  Whatever the trees are, putting their groups together gives the one
setting that they have, or the list of their settings, with nothing empty or nested in it.  A
session set up by that is the same as one set up by the settings one after the other. -/
theorem grouping_immaterial (trees : List SettingTree) (listing : Stack → Text) :
    let settings := SettingTree.leavesOf trees
    let value := SettingTree.gather (SettingTree.gatheredAll trees)
    (∀ s, settings = [s] → value = .one s)
      ∧ (settings.length ≠ 1 → value = .group (settings.map .one))
      ∧ (Settings.combine (SettingTree.values trees)).toTree = value
      ∧ value.setUp listing = some (Session.new trees listing)
      ∧ Session.new trees listing = Session.new (settings.map .one) listing := by
  intro settings value
  have hvalue : value = SettingTree.flat settings := SettingTree.gather_eq_flat trees
  refine ⟨fun s hs => ?_, fun hlength => ?_, ?_, SettingTree.setUp_gather trees listing, ?_⟩
  · rw [hvalue, hs]
    rfl
  · rw [hvalue, SettingTree.flat_of_length_ne hlength]
  · rw [hvalue, Settings.toTree_combine]
  · rw [Session.new_eq, Session.new_eq, SettingTree.leavesOf_ones]

/-- A setting deep in groups of its own, and two settings of which one stands in a group. -/
theorem grouping_immaterial_nested :
    let deep : List SettingTree := [.absent, .group [.group [.one (.echo true)], .absent]]
    let two : List SettingTree := [.group [.one (.echo true), .absent], .one (.echo false)]
    SettingTree.leavesOf deep = [.echo true]
      ∧ SettingTree.gather (SettingTree.gatheredAll deep) = .one (.echo true)
      ∧ (SettingTree.leavesOf two).length ≠ 1
      ∧ SettingTree.gather (SettingTree.gatheredAll two)
        = .group [.one (.echo true), .one (.echo false)] := by
  intro deep two
  have hdeep : SettingTree.leavesOf deep = [.echo true] := by decide
  have htwo : (SettingTree.leavesOf two).length ≠ 1 := by decide
  exact ⟨hdeep, (grouping_immaterial deep Stack.listing).1 _ hdeep, htwo,
    (grouping_immaterial two Stack.listing).2.1 htwo⟩

end LineForth
