import CStudy.Foundation.Heap
import CStudy.Foundation.Machine
import CStudy.Foundation.Threads
import CStudy.Foundation.Flow
import CStudy.Foundation.Program
import CStudy.Foundation.Text
import CStudy.Foundation.Memory
import CStudy.Foundation.Stdio
import CStudy.Foundation.Ring
import CStudy.Foundation.Mixing
import CStudy.Foundation.Ownership
import CStudy.Foundation.Monitor
import CStudy.Foundation.Progress
import CStudy.Foundation.Datagrams
import CStudy.LruCache.Model
import CStudy.LruCache.Ledger
import CStudy.LruCache.Layout
import CStudy.LruCache.Scan
import CStudy.LruCache.Refinement
import CStudy.LruCache.Observation
import CStudy.LruCache.Insertion
import CStudy.LruCache.Accounting
import CStudy.LruCache.Recency
import CStudy.LruCache.Retention
import CStudy.LruCache.Seeds
import CStudy.LruCache.StaleMemory
import CStudy.LruCache.MapOperations
import CStudy.LruCache.Hash
import CStudy.LruCache.Slots
import CStudy.LruCache.Dump
import CStudy.LruCache.Blocks
import CStudy.LruCache.Buffers
import CStudy.LruCache.BlocksRefinement
import CStudy.LruCache.Lifetime
import CStudy.LruCache.Concurrent
import CStudy.ThreadPool01.Model
import CStudy.ThreadPool01.Tasks
import CStudy.ThreadPool01.Barrier
import CStudy.ThreadPool01.Custody
import CStudy.ThreadPool01.Wakeup
import CStudy.ThreadPool01.Statements
import CStudy.ThreadPool01.Locking
import CStudy.ThreadPool01.Shutdown
import CStudy.ThreadPool01.Creation
import CStudy.ThreadPool01.Draining
import CStudy.ThreadPool02.JobQueue
import CStudy.ThreadPool02.Model
import CStudy.ThreadPool02.Jobs
import CStudy.ThreadPool02.Barrier
import CStudy.ThreadPool02.Fifo
import CStudy.ThreadPool02.Statements
import CStudy.ThreadPool02.Shutdown
import CStudy.ThreadPool02.Semaphore
import CStudy.ThreadPool02.SemaphoreUse
import CStudy.ThreadPool02.Creation
import CStudy.ThreadPool02.Draining
import CStudy.ThreadPool02.Memory
import CStudy.ThreadPool02.Ending
import CStudy.SnakeGame.Model
import CStudy.SnakeGame.Placement
import CStudy.SnakeGame.Foods
import CStudy.SnakeGame.Steering
import CStudy.SnakeGame.Room
import CStudy.SnakeGame.Trail
import CStudy.Shell.Model
import CStudy.Shell.Reading
import CStudy.Shell.Session
import CStudy.ReadLine.Model
import CStudy.ReadLine.Call
import CStudy.ReadLine.Drain
import CStudy.Cat.Model
import CStudy.Cat.Agreement
import CStudy.Cat.Descriptor
import CStudy.Cat.Copying
import CStudy.Cat.Visible
import CStudy.DirWalk.Model
import CStudy.DirWalk.Tree
import CStudy.DirWalk.Traversal
import CStudy.DirWalk.Statistic
import CStudy.DirWalk.Returns
import CStudy.DirWalk.Moving
import CStudy.ChatServer.Model
import CStudy.ChatServer.Membership
import CStudy.ChatServer.Broadcast
import CStudy.Tail.Model
import CStudy.Tail.Output
import CStudy.UpcaseServer.Model
import CStudy.UpcaseServer.Gaps
import CStudy.UpcaseServer.Multithreaded
import CStudy.UpcaseServer.Clients
import CStudy.UpcaseServer.Preforked
import CStudy.UpcaseServer.Children
import CStudy.UpcaseServer.Evented
import CStudy.UpcaseServer.Requests
import CStudy.UpcaseEcho.Model
import CStudy.UpcaseEcho.Answers
import CStudy.UpcaseEcho.Completion
import CStudy.Tee.Model
import CStudy.Tee.Rounds
import CStudy.RunCommand.Model
import CStudy.RunCommand.Lines
import CStudy.WordCount.Model
import CStudy.WordCount.Ending
import CStudy.WordCount.Agreement
import CStudy.Head.Model
import CStudy.Head.Rows
