import EC440.FileSystems.Directory
import EC440.FileSystems.Write
import EC440.FileSystems.Truncate
import EC440.FileSystems.Mount
import EC440.Lib.Run

/-!
# The calls of a mounted file system

`Call` lists the `fs_*` calls a program can make between `mount_fs` and
`umount_fs`, and `step` answers one.  `fresh` is the file system of a process that
has just started, made a disk and mounted it.
-/

namespace EC440.FileSystems

open EC440.Lib

inductive Call where
  | open (name : CString)
  | close (fildes : Int)
  | create (name : CString)
  | delete (name : CString)
  | read (fildes : Int) (buf : Nat → UInt8) (nbyte : Nat)
  | write (fildes : Int) (buf : Nat → UInt8) (nbyte : Nat)
  | getFilesize (fildes : Int)
  | listfiles
  | lseek (fildes : Int) (offset : Int)
  | truncate (fildes : Int) (length : Int)

/-- The return value of a call and the state after it. -/
def step (s : State) : Call → Int × State
  | .open name => fsOpen s name
  | .close fildes => fsClose s fildes
  | .create name => fsCreate s name
  | .delete name => fsDelete s name
  | .read fildes buf nbyte => ((fsRead s fildes buf nbyte).1, (fsRead s fildes buf nbyte).2.2)
  | .write fildes buf nbyte => fsWrite s fildes buf nbyte
  | .getFilesize fildes => (fsGetFilesize s fildes, s)
  | .listfiles => (0, s)
  | .lseek fildes offset => fsLseek s fildes offset
  | .truncate fildes length => fsTruncate s fildes length

/-- A name a file can have: between 1 and 15 bytes. -/
def ValidName (name : CString) : Prop := 1 ≤ name.val.length ∧ name.val.length ≤ 15

def Process.start (disks : String → Disk) : Process := ⟨State.start, disks, none⟩

/-- A file system just made and mounted: `make_fs` and `mount_fs` in a new process,
on a disk that `make_disk` filled with `blank`. -/
def fresh (blank : Disk) : State :=
  let p := (makeFs blank (Process.start (fun _ => blank)) "disk").2
  (mountFs p "disk").2.fs

end EC440.FileSystems
