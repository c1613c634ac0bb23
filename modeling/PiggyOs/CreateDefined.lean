import PiggyOs.Pathname

/-! Where `vfs_create` finds an operation to call. `devfs` sets none. -/
namespace PiggyOs.VfsTree
open Hash CString Separated Fuel IntrusiveList Filter Transition CoveredTree

variable {s s' : Vfs} {d e m n x : ℕ} {c : CString} {S : System} {events : List Event} {stale : ℕ → List (BitVec 8)}
  {parent : ℕ} {path : CString} {mode : BitVec 32}

/-- The call never goes through a pointer that is not set. -/
def CreateDefined (s : Vfs) (stale : ℕ → List (BitVec 8)) (parent : ℕ) (path : CString) (mode : BitVec 32) : Prop :=
  ∀ fuel, vfsCreate s stale parent path mode fuel ≠ some .fault

/-- The path names something in the root of `devfs` that is not there, or that is wanted as a directory but is
none. -/
def MissingDevice (s : Vfs) (stale : ℕ → List (BitVec 8)) (parent : ℕ) (path : CString) : Prop :=
  ∃ c copy, Leads s stale parent path s.devfsRoot c copy ∧ (s.lookup s.devfsRoot copy = none ∨
    ∃ x m, s.lookup s.devfsRoot copy = some x ∧ s.reduced x = some m ∧ asksForDir path = true ∧ s.isDir m = false)

/-- Directories belong to `tmpfs`, apart from the root of `devfs`. -/
def TmpfsDirs (s : Vfs) : Prop := ∀ x, s.isDir x = true → (s.nodes x).fs = some .tmpfs ∨ x = s.devfsRoot

section Directories

lemma TmpfsDirs.congr (h : TmpfsDirs s) (hroot : s'.devfsRoot = s.devfsRoot) (hnodes : ∀ x, s'.isDir x = true →
    (s'.nodes x).fs = some .tmpfs ∨ (s.isDir x = true ∧ (s'.nodes x).fs = (s.nodes x).fs)) : TmpfsDirs s' := by
  intro x hx
  rcases hnodes x hx with hnew | ⟨hdir, hfs⟩
  · exact Or.inl hnew
  · rw [hfs, hroot]
    exact h x hdir

lemma TmpfsDirs.tmpfsCreate (h : TmpfsDirs s) (dir : ℕ) (name : CString) (mode : BitVec 32) :
    TmpfsDirs (tmpfsCreate s dir name mode).2 := by
  refine h.congr rfl fun x hx => ?_
  by_cases hnew : x = s.count
  · rw [hnew, tmpfsCreate_self]
    exact Or.inl rfl
  · rw [Vfs.isDir, tmpfsCreate_nodes _ _ _ _ hnew] at hx
    rw [tmpfsCreate_nodes _ _ _ _ hnew]
    exact Or.inr ⟨hx, rfl⟩

lemma TmpfsDirs.setChild (h : TmpfsDirs s) (x : ℕ) (key : CString) (n v : ℕ) : TmpfsDirs (s.setChild x key n v) := by
  refine h.congr rfl fun y hy => Or.inr ?_
  rw [Vfs.isDir, setChild_nodes] at hy
  rw [setChild_nodes]
  exact ⟨hy, rfl⟩

lemma TmpfsDirs.createDotentries (h : TmpfsDirs s) (hs : Fresh s) (p : ℕ) (hm : m < s.count) :
    TmpfsDirs (createDotentries s p m) := by
  refine h.congr rfl fun x hx => Or.inr ?_
  rw [createDotentries_isDir hs p hm] at hx
  refine ⟨hx, ?_⟩
  by_cases hxm : x = m
  · rw [hxm, createDotentries_node s p hm]
  · rw [createDotentries_nodes s p (Or.inl (hs.lt_of_isDir hx)) hxm]

lemma TmpfsDirs.createIn {r : Path2NodeRes} {node : Option ℕ} (h : TmpfsDirs s) (hs : Fresh s)
    (hcreate : createIn s path mode r = .returns (s', node)) : TmpfsDirs s' := by
  rcases createIn_cases hcreate with ⟨rfl, -⟩ | ⟨dir, -, hfs, ⟨-, -, rfl⟩ | ⟨-, -, rfl⟩⟩
  · exact h
  · exact h.tmpfsCreate dir _ _
  · have hlt : dir < s.count := by
      by_contra hge
      rw [hs.clear dir (not_lt.mp hge)] at hfs
      simp [blank] at hfs
    have hentered : TmpfsDirs (entered s dir (basename path) mode) := (h.tmpfsCreate dir _ _).setChild _ _ _ _
    rw [addEntry_eq]
    split_ifs
    · exact hentered.createDotentries ((hs.tmpfsCreate dir _ _).set _ (Nat.lt_succ_of_lt hlt)) dir (Nat.lt_succ_self _)
    · exact hentered

lemma tmpfsDirs_step (S : System) (a : Event) (S' : System) (h : KernelValid S ∧ TmpfsDirs S.vfs) (hstep : KernelStep S a S') :
    KernelValid S' ∧ TmpfsDirs S'.vfs := by
  refine ⟨h.1.step S a S' hstep, ?_⟩
  obtain ⟨⟨⟨reduce, up, hinv⟩, hshaped, -⟩, hdirs⟩ := h
  obtain ⟨-, hstep⟩ := hstep
  cases a with
  | create stale parent name mode =>
    obtain ⟨-, -, -, fuel, node, hcreate⟩ := hstep
    obtain ⟨r, -, hr⟩ := vfsCreate_cases hcreate
    exact hdirs.createIn hinv.fresh hr
  | chdir stale parent path =>
    obtain ⟨-, fuel, d, -, -, rfl⟩ := hstep
    exact hdirs
  | mountDev stale =>
    obtain ⟨-, fuel, b, hmount, -⟩ := hstep
    rcases vfsMount_cases hmount with ⟨hs, -⟩ | ⟨dir, node, hr, hnode, -, hs⟩
    · rw [hs]
      exact hdirs
    · rw [hs]
      have hset : TmpfsDirs (S.vfs.set node { S.vfs.nodes node with mountpoint := some S.vfs.devfsRoot }) := by
        refine hdirs.congr rfl fun x hx => Or.inr ?_
        by_cases hxn : x = node
        · rw [hxn, Vfs.isDir, set_nodes_self] at hx
          rw [hxn, set_nodes_self]
          exact ⟨hx, rfl⟩
        · rw [Vfs.isDir, set_nodes_of_ne _ _ hxn] at hx
          rw [set_nodes_of_ne _ _ hxn]
          exact ⟨hx, rfl⟩
      have hlt : node < S.vfs.count := hnode.elim (fun h => h ▸ hinv.fresh.vfsRoot_lt) hinv.fresh.lt_of_isDir
      exact hset.createDotentries (hinv.fresh.set _ hlt) dir hinv.fresh.devfsRoot_lt
  | device stale name mode =>
    obtain ⟨-, -, hmode, -, -, fuel, vfs, node, hcreate, hvfs⟩ := hstep
    rw [hvfs]
    rcases devfsCreateDevice_cases mode hinv.fresh hcreate with hs | hs
    · rw [hs]
      exact hdirs
    · rw [hs]
      have hne : S.vfs.devfsRoot ≠ S.vfs.count := hinv.fresh.devfsRoot_lt.ne
      refine hdirs.congr rfl fun x hx => Or.inr ?_
      by_cases hnew : x = S.vfs.count
      · rw [hnew, Vfs.isDir, grown_self hne] at hx
        exact absurd (hx.symm.trans hmode) (by decide)
      · obtain ⟨-, -, hfs, -, -, hdir⟩ := grown_attributes S.vfs.devfsRoot (deviceNode S.vfs name mode) hnew
        exact ⟨hdir ▸ hx, hfs⟩

lemma tmpfsDirs_of_run (hrun : Run KernelStep systemInit events S) : KernelValid S ∧ TmpfsDirs S.vfs := by
  refine hrun.invariant tmpfsDirs_step ⟨kernelValid_systemInit, fun x hx => ?_⟩
  have hlt : x < 5 := inv_systemInit.fresh.lt_of_isDir hx
  interval_cases x
  · exact absurd hx (by decide)
  · exact Or.inr rfl
  · exact Or.inl rfl
  · exact absurd hx (by decide)
  · exact absurd hx (by decide)

end Directories

section Creation

lemma resolve_missing_iff : resolve s stale parent path = some ⟨some s.devfsRoot, none⟩ ↔ MissingDevice s stale parent path := by
  constructor
  · intro hresolve
    obtain ⟨c, copy, hlead⟩ := leads_of_resolve hresolve
    refine ⟨c, copy, hlead, ?_⟩
    rw [hlead.resolve] at hresolve
    rcases walkFrom_single hresolve with ⟨hnone, -⟩ | ⟨x, m, hx, hm, hlast⟩
    · exact Or.inl hnone
    · rw [lastResult] at hlast
      split_ifs at hlast with hask
      · exact Or.inr ⟨x, m, hx, hm, hask.1, by simpa using hask.2⟩
      · simp at hlast
  · rintro ⟨c, copy, hlead, hnone | ⟨x, m, hx, hm, hask, hdir⟩⟩
    · rw [hlead.resolve, walkFrom, hnone]
    · rw [hlead.resolve, walkFrom, hx]
      dsimp only
      rw [hm, Option.map_some, lastResult, if_pos ⟨hask, by simp [hdir]⟩]

/-- The call goes wrong where the directory that it has found is not one of `tmpfs`. -/
lemma createIn_fault_iff {r : Path2NodeRes} : createIn s path mode r = .fault ↔
    ∃ dir, r = ⟨some dir, none⟩ ∧ (s.nodes dir).fs ≠ some .tmpfs := by
  obtain ⟨parent, node⟩ := r
  cases parent with
  | none => simp [createIn]
  | some dir =>
    cases node with
    | some node => simp [createIn]
    | none =>
      cases hfs : (s.nodes dir).fs with
      | none => simp [createIn, hfs]
      | some fs =>
        cases fs with
        | devfs => simp [createIn, hfs]
        | tmpfs =>
          simp only [createIn, hfs]
          split_ifs <;> simp [hfs]

/-- A path can be created or is refused if and only if it does not name what is missing in the root of `devfs`. -/
theorem vfsCreate_defined_iff (hrun : Run KernelStep systemInit events S) (hparent : parent ∈ S.cwds) :
    CreateDefined S.vfs stale parent path mode ↔ ¬MissingDevice S.vfs stale parent path := by
  obtain ⟨⟨⟨reduce, up, hinv⟩, h, -⟩, hdirs⟩ := tmpfsDirs_of_run hrun
  rw [← resolve_missing_iff]
  constructor
  · intro hdefined hmissing
    have hcreate := (settles_vfsCreate S.vfs stale parent path mode).eventually
    have hfault : createIn S.vfs path mode ⟨some S.vfs.devfsRoot, none⟩ = .fault := by
      refine createIn_fault_iff.mpr ⟨_, rfl, ?_⟩
      rw [h.devfsRoot, h.dev.2.2]
      decide
    rw [hmissing, Option.map_some, hfault] at hcreate
    obtain ⟨fuel, hfuel⟩ := hcreate.exists
    exact hdefined fuel hfuel
  · intro hfound fuel hfault
    obtain ⟨r, hr, hcreate⟩ := vfsCreate_cases hfault
    obtain ⟨dir, rfl, hfs⟩ := createIn_fault_iff.mp hcreate
    obtain ⟨c, copy, hlead⟩ := leads_of_resolve hr
    have hdir := (hinv.place (hinv.leads_place hparent hlead)).2.2.1
    rcases hdirs dir hdir with htmpfs | rfl
    · exact hfs htmpfs
    · exact hfound hr

/-- In the tree that has just been mounted, `/a` can be created. -/
theorem vfsCreate_defined_root : CreateDefined rootMounted (fun _ => []) 0 (join emptyPath dirName) sIfreg := by
  refine (vfsCreate_defined_iff (S := systemInit) (.nil systemInit) (show 0 ∈ systemInit.cwds from rfl)).mpr ?_
  have hpath : path2node rootMounted (fun _ => []) 0 (join emptyPath dirName) 10 = some ⟨some 2, none⟩ := rfl
  rw [← resolve_missing_iff, show systemInit.vfs = rootMounted from rfl, (settles_path2node _ _ _ _).sound 10 _ hpath]
  decide

def newDevicePath : CString := ⟨[slash, 0x64, 0x65, 0x76, slash, 0x61], by decide⟩

def devMounted : Vfs := attach (withDir devName).vfs 2 5 1

lemma kernelRun_devMounted : Run KernelStep systemInit
    [.create (fun _ => []) 0 (join emptyPath devName) sIfdir, .mountDev fun _ => []] ⟨devMounted, {1, 0}, true⟩ := by
  have hdir := kernelRun_withDir devName (by decide) ordinary_devName (by decide)
  have hmount : vfsMount (withDir devName).vfs (fun _ => []) (fun _ => []) 0 none devPath .devfs 10 = some (devMounted, true) := rfl
  have hstep : KernelStep (withDir devName) (.mountDev fun _ => []) ⟨devMounted, {1, 0}, true⟩ :=
    ⟨by unfold Fits; decide, rfl, 10, true, hmount, rfl, rfl⟩
  exact hdir.append (.single hstep)

/-- After the mounts of `kernel_main`, `open("/dev/a", O_CREAT)` calls through a pointer that is not set. -/
theorem vfsCreate_undefined : ∃ events S, Run KernelStep systemInit events S ∧ 0 ∈ S.cwds ∧
    vfsCreate S.vfs (fun _ => []) 0 newDevicePath sIfreg 10 = some .fault ∧
    ¬CreateDefined S.vfs (fun _ => []) 0 newDevicePath sIfreg := by
  have hfault : vfsCreate devMounted (fun _ => []) 0 newDevicePath sIfreg 10 = some .fault := rfl
  exact ⟨_, _, kernelRun_devMounted, by simp, hfault, fun hdefined => hdefined 10 hfault⟩

end Creation

end PiggyOs.VfsTree
