import BloomFS.Block.Device
import BloomFS.Block.Images
import BloomFS.Alloc.Bitmap
import BloomFS.Alloc.Words
import BloomFS.Bloom.Words
import BloomFS.Dedup.Table
import BloomFS.Inode.Table
import BloomFS.Cow.History
import BloomFS.Cow.Snapshot
import BloomFS.Cow.Retry
import BloomFS.Cow.Geometry
import BloomFS.Store.Content
import BloomFS.Store.Usage
import BloomFS.Dir.Directory
import BloomFS.Dir.Map
import BloomFS.Lib.Sim
import BloomFS.Fs.Layout
import BloomFS.Fs.Run
import BloomFS.Fs.Namespace
import BloomFS.Fs.Partition
import BloomFS.Fs.Stream
import BloomFS.Runs.Reformat
import BloomFS.Runs.Failed
import BloomFS.Fs.Fresh
import BloomFS.Store.Ledger
import BloomFS.Fs.Files
import BloomFS.Fs.Writes
import BloomFS.Spec.Machine
import BloomFS.Spec.Pages
import BloomFS.Refine.Rep
import BloomFS.Refine.Dirs
import BloomFS.Refine.Ops
import BloomFS.Spec.Calls
import BloomFS.Spec.View
import BloomFS.Spec.Effects
import BloomFS.Spec.Change
import BloomFS.Spec.Orderly
import BloomFS.Refine.Step
import BloomFS.Refine.Run
import BloomFS.Refine.Exact
import BloomFS.Refine.Script
import BloomFS.Refine.Plain
import BloomFS.Runs.FreeList
import BloomFS.Runs.Tree
import BloomFS.Runs.Loops
import BloomFS.Runs.Generations
import BloomFS.Runs.Links
import BloomFS.Runs.Mounts
import BloomFS.Runs.Space
import BloomFS.Runs.Pinned
import BloomFS.Runs.DirPages
import BloomFS.Go.GlobalFilter
import BloomFS.Go.Volume
import BloomFS.Cli.Key
import BloomFS.Cli.Volumes
import BloomFS.Fuse.Binding
import BloomFS.Fuse.Listing
import BloomFS.Spec.Errors
import BloomFS.Fs.Room
import BloomFS.Fs.Fill
import BloomFS.Runs.OneFile
import BloomFS.Fuse.Space
import BloomFS.Fs.Promise
import BloomFS.Runs.Fallocate
import BloomFS.Runs.SlotRoom
import BloomFS.Runs.Contents
import BloomFS.Runs.Oversize
import BloomFS.Runs.Layout
import BloomFS.Runs.OpenFiles
import BloomFS.Runs.Unseen
import BloomFS.Runs.Durable
import BloomFS.Runs.Crashes
import BloomFS.Runs.Owners
import BloomFS.Runs.Inodes
import BloomFS.Runs.Names
import BloomFS.Runs.OpenCounts
import BloomFS.Fuse.Sessions
