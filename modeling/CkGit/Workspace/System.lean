import CkGit.Base.Interference
import CkGit.Workspace.Model
import Mathlib.Logic.Relation

/-!
Runs of the machine: the runner makes and removes workspaces one system call at a
time, the helper of a workspace goes on without it, and the runner may be killed
or the machine restarted between any two steps.
-/
namespace CkGit.Workspace
open Base

/-- The files below a directory changed, apart from those that are kept. -/
def ChangedBelow (dir : Path) (kept : List Path) (files other : FileSystem) : Prop :=
  ∀ path, ¬ dir <+: path ∨ path = dir ∨ path ∈ kept → other.get path = files.get path

/-- What a helper and its guest do, with or without their runner. -/
inductive Helps : Host → Host → Prop where
  | lock {host : Host} {name content : Bytes} (waiting : host.helper name = some .spawned)
      (there : host.files.get (useLockPath name) = some (.file content)) (free : host.useLock name = none) :
      Helps host { host with
        helper := Function.update host.helper name (some .locked)
        useLock := Function.update host.useLock name (some .helper) }
  /-- Nobody else can have put a proof there since the lock was taken. -/
  | start {host : Host} {name : Bytes} (locked : host.helper name = some .locked)
      (unproved : host.files.get (stoppedPath name) = none) :
      Helps host { host with
        helper := Function.update host.helper name (some .started)
        guest := Function.update host.guest name .running }
  /-- The guest writes its disk. -/
  | work {host : Host} {name : Bytes} {files : FileSystem} (running : host.guest name = .running)
      (below : ChangedBelow (vmPath name) [stoppedPath name, useLockPath name] host.files files) :
      Helps host { host with files := files }
  | stop {host : Host} {name : Bytes} (started : host.helper name = some .started) :
      Helps host { host with
        helper := Function.update host.helper name (some .stopped)
        guest := Function.update host.guest name .stopped }
  | prove {host : Host} {name : Bytes} (stopped : host.helper name = some .stopped)
      (unproved : host.files.get (stoppedPath name) = none) :
      Helps host { host with
        helper := Function.update host.helper name (some .proving)
        files := host.files.place (stoppedPath name) (.file []) }
  | record {host : Host} {name : Bytes} (proving : host.helper name = some .proving) :
      Helps host { host with files := host.files.place (stoppedPath name) (.file stoppedMarker) }
  /-- At any point, also when it fails or is killed: the guest may then still run. -/
  | exit {host : Host} {name : Bytes} :
      Helps host { host with
        helper := Function.update host.helper name none
        useLock := if host.useLock name = some .helper then Function.update host.useLock name none else host.useLock }

/-- The runner below the lock on its work root. -/
inductive Session where
  | running (program : Call (Option (Bytes × Bytes)))
  | alive (name boot : Bytes) (spawned : Bool)

structure System where
  host : Host
  session : Option Session

/-- The descriptors of the runner are closed. -/
def Host.released (host : Host) : Host :=
  { host with useLock := fun name => if host.useLock name = some .runner then none else host.useLock name }

/-- Nothing runs after a restart. -/
def Host.restarted (host : Host) (boot : Bytes) : Host :=
  { host with
    boot := boot
    boots := boot :: host.boots
    useLock := fun _ => none
    guest := fun _ => .off
    helper := fun _ => none }

/-- A boot session as `bootId` returns it. -/
def ValidBoot (boot : Bytes) : Prop := isBootSession boot = true ∧ boot.map lowered = boot

section
variable (world : World)

inductive Step : System → System → Prop where
  /-- Another constructor is refused while the work root is locked. -/
  | create {host : Host} : Step ⟨host, none⟩ ⟨host, some (.running (createWorkspace world))⟩
  | advance {host next : Host} {p q : Call (Option (Bytes × Bytes))} (step : Prog.Advances p host q next) :
      Step ⟨host, some (.running p)⟩ ⟨next, some (.running q)⟩
  | created {host : Host} {name boot : Bytes} :
      Step ⟨host, some (.running (.done (some (name, boot))))⟩ ⟨host, some (.alive name boot false)⟩
  | removed {host : Host} : Step ⟨host, some (.running (.done none))⟩ ⟨host.released, none⟩
  | failed {host : Host} {error : String} : Step ⟨host, some (.running (.throw error))⟩ ⟨host.released, none⟩
  /-- The sources of the job are put into the exchange directory. -/
  | stage {host : Host} {name boot : Bytes} {spawned : Bool} {files : FileSystem}
      (below : ChangedBelow [name, exchangeName] [] host.files files) :
      Step ⟨host, some (.alive name boot spawned)⟩ ⟨{ host with files := files }, some (.alive name boot spawned)⟩
  | spawn {host : Host} {name boot : Bytes} :
      Step ⟨host, some (.alive name boot false)⟩
        ⟨{ host with helper := Function.update host.helper name (some .spawned) }, some (.alive name boot true)⟩
  /-- The caller has first proved that the VM and its host process have stopped. -/
  | remove {host : Host} {name boot : Bytes} {spawned : Bool} (stopped : host.guest name ≠ .running)
      (gone : host.helper name = none) :
      Step ⟨host, some (.alive name boot spawned)⟩ ⟨host, some (.running (removeAfterConfirmedStop world name boot))⟩
  | killed {host : Host} {session : Session} : Step ⟨host, some session⟩ ⟨host.released, none⟩
  | help {host next : Host} {session : Option Session} (step : Helps host next) : Step ⟨host, session⟩ ⟨next, session⟩
  /-- No two boot sessions have one identifier. -/
  | restart {host : Host} {session : Option Session} {boot : Bytes} (valid : ValidBoot boot)
      (fresh : boot ∉ host.boots) : Step ⟨host, session⟩ ⟨host.restarted boot, none⟩

/-- The machine before the first runner: nothing runs, and nothing in the work root carries a marker. -/
structure Starts (s : System) : Prop where
  idle : s.session = none
  off : ∀ name, s.host.guest name = .off
  alone : ∀ name, s.host.helper name = none
  unmarked : ∀ name boot, markerOf s.host.files name ≠ .ok boot
  unused : s.host.made = []
  booted : s.host.boots = [s.host.boot]
  valid : ValidBoot s.host.boot

/-- What a run can reach. -/
def Reaches (s t : System) : Prop := Relation.ReflTransGen (Step world) s t

end
end CkGit.Workspace
