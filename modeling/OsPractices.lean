import OsPractices.Buddy.AllocPages
import OsPractices.Buddy.Answers
import OsPractices.Buddy.BestFit
import OsPractices.Buddy.Bounds
import OsPractices.Buddy.Canonical
import OsPractices.Buddy.Checked
import OsPractices.Buddy.Code
import OsPractices.Buddy.Counts
import OsPractices.Buddy.FreeLists
import OsPractices.Buddy.Fresh
import OsPractices.Buddy.InitPage
import OsPractices.Buddy.Lists
import OsPractices.Buddy.Pool
import OsPractices.Buddy.Properties
import OsPractices.Buddy.Reinit
import OsPractices.Buddy.Represents
import OsPractices.Buddy.ReturnPages
import OsPractices.Buddy.Session
import OsPractices.Buddy.TreeIndex
import OsPractices.Buddy.Undo
import OsPractices.Chat.Blacklist
import OsPractices.Chat.Costs
import OsPractices.Chat.Crossing
import OsPractices.Chat.Flooding
import OsPractices.Chat.FloodingBound
import OsPractices.Chat.Group
import OsPractices.Chat.Held
import OsPractices.Chat.Joining
import OsPractices.Chat.Message
import OsPractices.Chat.Node
import OsPractices.Chat.WritePump
import OsPractices.Coroutine.Code
import OsPractices.Coroutine.Coherent
import OsPractices.Coroutine.Control
import OsPractices.Coroutine.Steps
import OsPractices.Keibot.Code
import OsPractices.Keibot.Contents
import OsPractices.Keibot.Entries
import OsPractices.Keibot.Kinds
import OsPractices.Keibot.Mirror
import OsPractices.Keibot.Orphans
import OsPractices.Keibot.Rename
import OsPractices.Library.ByteMemory
import OsPractices.Library.Dyadic
import OsPractices.Library.LinkedList
import OsPractices.Library.Tiling
import OsPractices.Malloc.Allocate
import OsPractices.Malloc.Code
import OsPractices.Malloc.Copies
import OsPractices.Malloc.Fit
import OsPractices.Malloc.Independence
import OsPractices.Malloc.Layout
import OsPractices.Malloc.Lists
import OsPractices.Malloc.Operations
import OsPractices.Malloc.Payload
import OsPractices.Malloc.Place
import OsPractices.Malloc.Refusal
import OsPractices.Malloc.Release
import OsPractices.Malloc.Represents
import OsPractices.Malloc.Requests
import OsPractices.Malloc.Resize
import OsPractices.Malloc.Safety
import OsPractices.Malloc.Session
import OsPractices.Malloc.Tags
import OsPractices.Malloc.Truncated
import OsPractices.Malloc.Walks
import OsPractices.Keibot.Listing
import OsPractices.Keibot.Unique
import OsPractices.Keibot.Emoji
import OsPractices.Keibot.Bounds
import OsPractices.Library.CString
import OsPractices.Keibot.Names
import OsPractices.Keibot.Atomic
import OsPractices.Malloc.Undo
import OsPractices.Malloc.DoubleFree
import OsPractices.ImplicitList.Code
import OsPractices.ImplicitList.Chain
import OsPractices.ImplicitList.Calls
import OsPractices.ImplicitList.Requests
import OsPractices.ImplicitList.Resize
import OsPractices.ImplicitList.Runs
import OsPractices.Chat.Suppression
import OsPractices.Chat.Delivery
import OsPractices.Coroutine.Tracks
import OsPractices.Coroutine.Transfers
import OsPractices.Coroutine.Running
import OsPractices.Coroutine.Round
import OsPractices.Coroutine.Ancestry
import OsPractices.Coroutine.Faults
import OsPractices.Coroutine.Failure
import OsPractices.Library.Allocator
import OsPractices.Library.Avoidance
import OsPractices.Library.Scan
import OsPractices.Malloc.Checkheap
import OsPractices.Mdriver.Accepts
import OsPractices.Mdriver.Advance
import OsPractices.Mdriver.Certifies
import OsPractices.Mdriver.Defined
import OsPractices.Mdriver.Refuses
import OsPractices.Mdriver.TraceFile
import OsPractices.Mdriver.Utilization
import OsPractices.Naive.Code
import OsPractices.Naive.Sound
import OsPractices.Library.PerlText
import OsPractices.Library.Progress
import OsPractices.Library.Rendezvous
import OsPractices.Library.Signals
import OsPractices.Mdriver.Balance
import OsPractices.Mdriver.Balanced
import OsPractices.Pthread.Barrier
import OsPractices.Pthread.Ordered
import OsPractices.Pthread.Race
import OsPractices.Coroutine.Scheduler
import OsPractices.Mdriver.Fcyc
import OsPractices.Chat.Typing
