import Grocr.Support.Machine
import Grocr.Support.FirstSeen
import Grocr.Support.SortedTable
import Grocr.Support.Swift
import Grocr.Support.Parallel
import Grocr.Firestore.Collection
import Grocr.Storage.Reference
import Grocr.Foundation
import Grocr.GroceryItem
import Grocr.UserInterface
import Grocr.DetailVC
import Grocr.GroceryListTableViewController
import Grocr.PopUpController
import Grocr.Proofs.Loading
import Grocr.Proofs.Display
import Grocr.Product
import Grocr.Proofs.Modify
import Grocr.Store
import Grocr.Proofs.Store
import Grocr.Proofs.Readable
import Grocr.Proofs.History
import Grocr.Proofs.Chart
import Grocr.Proofs.Interleaving
import Grocr.Proofs.Opened
import Grocr.ListScreen
import Grocr.Proofs.ListScreen
import Grocr.Proofs.Overlay
import Grocr.Pictures
import Grocr.Proofs.Pictures
import Grocr.Requests
import Grocr.Proofs.Requests
import Grocr.LoginViewController
import Grocr.LoginScreen
import Grocr.Proofs.LoginScreen
import Grocr.Support.Entries
import Grocr.Support.SortedList
import Grocr.Support.Checked
import Grocr.Support.History
import Grocr.Firestore.FieldValue
import Grocr.Firestore.TransformOperation
import Grocr.Firestore.Mutation
import Grocr.Firestore.MutationQueue
import Grocr.Firestore.LocalStore
import Grocr.Firestore.SyncEngine
import Grocr.Firestore.DocumentReference
import Grocr.Proofs.MutationQueue
import Grocr.Proofs.LocalStore
import Grocr.Proofs.WritePipeline
import Grocr.Proofs.Completions
import Grocr.Proofs.Convergence
import Grocr.Proofs.Writes
import Grocr.Proofs.PendingWrites
import Grocr.Proofs.Query
import Grocr.Proofs.CollectionView
import Grocr.Support.Lexicographic
import Grocr.Support.Bytes
import Grocr.Support.Cursor
import Grocr.Firestore.OrderedCode
import Grocr.Proofs.OrderedCode
import Grocr.Proofs.OrderedNumbers
import Grocr.Firestore.LevelDbKey
import Grocr.Proofs.LevelDbKey
import Grocr.Proofs.LevelDbRows
import Grocr.Firestore.LevelDbTransaction
import Grocr.Proofs.LevelDbTransaction
import Grocr.Proofs.LevelDbScan
import Grocr.Firestore.Serializer
import Grocr.Proofs.Serializer
import Grocr.Firestore.LevelDbMutationQueue
import Grocr.Proofs.LevelDbMutationQueue
import Grocr.Proofs.LevelDbBatchIds
import Grocr.Proofs.MutationQueues
